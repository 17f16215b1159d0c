import Fms.Inject.Scan
import Mathlib.Computability.ContextFreeGrammar

/-!
# The parser of the injection scripts

tools/fmsinject: `fminject.y` has the grammar, y.tab.c the tables that byacc made of it and the loop
over the tables. A statement is injected when it is reduced, so that what stands in front of an error
has been injected. The stacks hold four entries at most, far from `YYINITSTACKSIZE`.

* `yyparse`: the tables and the loop, with the error recovery, on the tokens that `yylex` returns;
* `fminject`: the messages for a file, of which the queue takes those that are `Sendable`;
* `scriptGrammar`: the grammar of fminject.y;
* `stmtsOf`: the statements in front of a list of tokens;
* **`yyparse_spec`**: the parser injects these statements, and accepts what the grammar derives;
* **`fminject_sends`**: the messages, from the rules of the scanner.
-/

namespace Fms

open CString

/-! ## The tables -/

def yylhs (n : ℕ) : ℤ := [-1, 0, 0, 2, 1, 1].getD n (-1)

def yylen (n : ℕ) : ℕ := [2, 2, 1, 2, 2, 0].getD n 0

def yydefred (n : ℕ) : ℕ := [0, 0, 0, 2, 0, 3, 1, 4].getD n 0

def yydgoto (n : ℕ) : ℕ := [2, 5, 3].getD n 0

def yysindex (n : ℕ) : ℤ := [-259, -255, -259, 0, -254, 0, 0, 0].getD n 0

def yyrindex (n : ℕ) : ℤ := [0, 1, 0, 0, 0, 0, 0, 0].getD n 0

def yygindex (n : ℕ) : ℤ := [0, 0, 3].getD n 0

/-- `yytable`; the entries between the sixth and the last are 0. -/
def yytable (n : ℕ) : ℕ := if n = 260 then 5 else [1, 5, 4, 0, 7, 6].getD n 0

/-- `yycheck`; the entries between the sixth and the last are -1. -/
def yycheck (n : ℕ) : ℤ := if n = 260 then 259 else [259, 0, 257, -1, 258, 2].getD n (-1)

/-- The test of an index into `yytable`, with the entry. -/
def yyentry (index c : ℤ) : Option ℕ :=
  if index ≠ 0 ∧ 0 ≤ index + c ∧ index + c ≤ 260 ∧ yycheck (index + c).toNat = c then some (yytable (index + c).toNat)
  else none

/-! ## The loop -/

/-- `YYSTYPE`, by the member that was written. -/
inductive Yystype where
  | undef
  | strval (s : CStr)
  | intval (n : ℤ)
  deriving DecidableEq

def Token.code : Token → ℤ
  | .comma => 257
  | .count _ => 258
  | .eclass _ => 259

theorem Token.code_ne_zero (t : Token) : t.code ≠ 0 := by
  cases t <;> simp [Token.code]

/-- `yylval` after a token; that of a comma is what was there. -/
def Token.lval (yylval : Yystype) : Token → Yystype
  | .comma => yylval
  | .count n => .intval n
  | .eclass s => .strval s

/-- The variables of `yyparse`: both stacks, the one with the states first, `yychar`, `yylval`, `yyerrflag`,
the tokens that are left, and the calls of `fm_inject`. -/
structure Yyparse where
  stack : List (ℕ × Yystype) := [(0, .undef)]
  yychar : ℤ := -1
  yylval : Yystype := .undef
  yyerrflag : ℕ := 0
  toks : List Token
  injected : List (CStr × ℤ) := []

/-- How a round of the loop ends; `undef` is an access through a value that is not there. -/
inductive Yynext where
  | yyloop (p : Yyparse)
  | done (ret : ℤ) (injected : List (CStr × ℤ))
  | undef

/-- `yylex`, if there is no token in hand. -/
def Yyparse.read (p : Yyparse) : Yyparse :=
  if p.yychar < 0 then
    match p.toks with
    | [] => { p with yychar := 0 }
    | t :: toks => { p with yychar := t.code, yylval := t.lval p.yylval, toks := toks }
  else p

/-- The `switch` of a reduction, with the values from the top. -/
def Yyparse.action (p : Yyparse) (yyn : ℕ) (vs : List Yystype) : Option (Yyparse × Yystype) :=
  match yyn, vs with
  | 3, .intval n :: .strval s :: _ => some ({ p with injected := p.injected ++ [(s, n)] }, .strval s)
  | 3, _ => none
  | 4, .intval n :: _ => some (p, .intval n)
  | 4, _ => none
  | 5, _ => some (p, .intval 1)
  | n, vs => some (p, vs.getD (yylen n - 1) .undef)

/-- `yyreduce` -/
def Yyparse.reduce (p : Yyparse) (yyn : ℕ) : Yynext :=
  match p.action yyn (p.stack.map Prod.snd) with
  | none => .undef
  | some (p, yyval) =>
    match p.stack.drop (yylen yyn) with
    | [] => .undef
    | (yystate, v) :: below =>
      let stack := (yystate, v) :: below
      if yystate = 0 ∧ yylhs yyn = 0 then
        let p := ({ p with stack := (2, yyval) :: stack } : Yyparse).read
        if p.yychar = 0 then .done 0 p.injected else .yyloop p
      else
        let yym := (yylhs yyn).toNat
        .yyloop { p with stack := ((yyentry (yygindex yym) yystate).getD (yydgoto yym), yyval) :: stack }

/-- The search for a state that shifts the error token. -/
def yyrecover (yylval : Yystype) : List (ℕ × Yystype) → Option (List (ℕ × Yystype))
  | [] => none
  | (s, v) :: below =>
    match yyentry (yysindex s) 256 with
    | some s' => some ((s', yylval) :: (s, v) :: below)
    | none => yyrecover yylval below

/-- `yyinrecovery` -/
def Yyparse.recover (p : Yyparse) : Yynext :=
  if p.yyerrflag < 3 then
    match yyrecover p.yylval p.stack with
    | some stack => .yyloop { p with stack := stack, yyerrflag := 3 }
    | none => .done 1 p.injected
  else if p.yychar = 0 then .done 1 p.injected
  else .yyloop { p with yychar := -1 }

/-- One round from `yyloop` on. -/
def Yyparse.round (p : Yyparse) : Yynext :=
  match p.stack with
  | [] => .undef
  | (yystate, _) :: _ =>
    if yydefred yystate ≠ 0 then p.reduce (yydefred yystate)
    else
      let p := p.read
      match yyentry (yysindex yystate) p.yychar with
      | some s =>
        .yyloop { p with stack := (s, p.yylval) :: p.stack, yychar := -1, yyerrflag := p.yyerrflag - 1 }
      | none =>
        match yyentry (yyrindex yystate) p.yychar with
        | some yyn => p.reduce yyn
        | none => p.recover

/-- The loop, for `n` rounds at most. -/
def Yyparse.run : ℕ → Yyparse → Option (ℤ × List (CStr × ℤ))
  | 0, _ => none
  | n + 1, p =>
    match p.round with
    | .yyloop p => p.run n
    | .done ret injected => some (ret, injected)
    | .undef => none

/-- `yyparse`: its value and the calls of `fm_inject`. -/
def yyparse (toks : List Token) : Option (ℤ × List (CStr × ℤ)) :=
  Yyparse.run (6 * toks.length + 1) { toks := toks }

/-- `fm_inject`: the messages that it gives to `mq_send`. -/
def fmInject (eclass : CStr) (repeats : ℤ) : List CStr := List.replicate repeats.toNat eclass

/-- `main`: the messages for a file. -/
def fminject (yyin : CStr) : Option (List CStr) :=
  (yyparse (scanTokens yyin)).map fun r => r.2.flatMap fun p => fmInject p.1 p.2

/-- `mq_send` takes a message, with its NUL, of at most `msgsize` bytes; `fm_inject` does not look at the result. -/
def Sendable (msgsize : ℕ) (m : CStr) : Prop := m.length + 1 ≤ msgsize

instance (msgsize : ℕ) (m : CStr) : Decidable (Sendable msgsize m) := by unfold Sendable; infer_instance

/-! ## The grammar -/

inductive TokenKind where
  | comma | count | eclass
  deriving DecidableEq

def Token.kind : Token → TokenKind
  | .comma => .comma
  | .count _ => .count
  | .eclass _ => .eclass

inductive ScriptNt where
  | stmtlist | stmt | repetition
  deriving DecidableEq

/-- The rules of fminject.y. -/
def scriptRules : List (ContextFreeRule TokenKind ScriptNt) :=
  [⟨.stmtlist, [.nonterminal .stmtlist, .nonterminal .stmt]⟩,
    ⟨.stmtlist, [.nonterminal .stmt]⟩,
    ⟨.stmt, [.terminal .eclass, .nonterminal .repetition]⟩,
    ⟨.repetition, [.terminal .comma, .terminal .count]⟩,
    ⟨.repetition, []⟩]

abbrev scriptGrammar : ContextFreeGrammar TokenKind where
  NT := ScriptNt
  initial := .stmtlist
  rules := scriptRules.toFinset

/-- A statement, with its count if it has one. -/
structure ScriptStmt where
  eclass : CStr
  count : Option ℤ

def ScriptStmt.tokens (s : ScriptStmt) : List Token :=
  .eclass s.eclass :: match s.count with
    | none => []
    | some n => [.comma, .count n]

/-- What a statement injects. -/
def ScriptStmt.value (s : ScriptStmt) : CStr × ℤ := (s.eclass, s.count.getD 1)

/-- The statements in front, and what is behind them: a class without a count is one only before the next class
and at the end. -/
def stmtsOf : List Token → List ScriptStmt × List Token
  | .eclass c :: .comma :: .count n :: ts => (⟨c, some n⟩ :: (stmtsOf ts).1, (stmtsOf ts).2)
  | [.eclass c] => ([⟨c, none⟩], [])
  | .eclass c :: .eclass d :: ts => (⟨c, none⟩ :: (stmtsOf (.eclass d :: ts)).1, (stmtsOf (.eclass d :: ts)).2)
  | ts => ([], ts)

theorem stmtsOf_tokens (ts : List Token) : (stmtsOf ts).1.flatMap ScriptStmt.tokens ++ (stmtsOf ts).2 = ts := by
  fun_induction stmtsOf ts with
  | case1 c n ts ih => simp only [List.flatMap_cons, ScriptStmt.tokens, List.cons_append, List.nil_append, ih]
  | case2 c => rfl
  | case3 c d ts ih => simp only [List.flatMap_cons, ScriptStmt.tokens, List.cons_append, List.nil_append, ih]
  | case4 ts => rfl

/-! ## Rounds -/

/-- The stacks at the start of the file, or behind a list of statements. -/
def AtStmt (stack : List (ℕ × Yystype)) : Prop :=
  (∃ v, stack = [(0, v)]) ∨ ∃ v w, stack = [(2, v), (0, w)]

section
variable {stack : List (ℕ × Yystype)} {k : ℕ} {x a b : Yystype} {ts : List Token} {inj : List (CStr × ℤ)} {c d : CStr}
  {n yychar : ℤ}

theorem run_yyloop {p p' : Yyparse} (h : p.round = .yyloop p') : p.run (k + 1) = p'.run k := by
  rw [Yyparse.run, h]

theorem run_done {p : Yyparse} {ret : ℤ} (h : p.round = .done ret inj) : p.run (k + 1) = some (ret, inj) := by
  rw [Yyparse.run, h]

theorem round_eclass (h : AtStmt stack) : Yyparse.round ⟨stack, 259, .strval c, 0, ts, inj⟩ =
    .yyloop ⟨(1, .strval c) :: stack, -1, .strval c, 0, ts, inj⟩ := by
  rcases h with ⟨v, rfl⟩ | ⟨v, w, rfl⟩ <;> rfl

theorem round_comma : Yyparse.round ⟨(1, a) :: stack, -1, x, 0, .comma :: ts, inj⟩ =
    .yyloop ⟨(4, x) :: (1, a) :: stack, -1, x, 0, ts, inj⟩ := rfl

theorem round_count : Yyparse.round ⟨(4, b) :: (1, a) :: stack, -1, x, 0, .count n :: ts, inj⟩ =
    .yyloop ⟨(7, .intval n) :: (4, b) :: (1, a) :: stack, -1, .intval n, 0, ts, inj⟩ := rfl

theorem round_repetition : Yyparse.round ⟨(7, .intval n) :: (4, b) :: (1, a) :: stack, yychar, x, 0, ts, inj⟩ =
    .yyloop ⟨(5, .intval n) :: (1, a) :: stack, yychar, x, 0, ts, inj⟩ := rfl

theorem round_end : Yyparse.round ⟨(1, a) :: stack, -1, x, 0, [], inj⟩ =
    .yyloop ⟨(5, .intval 1) :: (1, a) :: stack, 0, x, 0, [], inj⟩ := rfl

theorem round_next : Yyparse.round ⟨(1, a) :: stack, -1, x, 0, .eclass d :: ts, inj⟩ =
    .yyloop ⟨(5, .intval 1) :: (1, a) :: stack, 259, .strval d, 0, ts, inj⟩ := rfl

theorem read_injected (p : Yyparse) : p.read.injected = p.injected := by
  rw [Yyparse.read]
  split_ifs
  · cases p.toks <;> rfl
  · rfl

/-- The reduction to a list of statements: the parser looks for the end of the file. -/
theorem run_stmtlist {p q : Yyparse} (h : p.round = if q.read.yychar = 0 then .done 0 q.read.injected else .yyloop q.read) :
    p.run (k + 1) = if q.read.yychar = 0 then some (0, q.injected) else q.read.run k := by
  rw [Yyparse.run, h, ← read_injected q]
  split_ifs <;> rfl

theorem run_stmt (h : AtStmt stack) (k : ℕ) (n yychar : ℤ) (x : Yystype) (ts : List Token) (inj : List (CStr × ℤ))
    (c : CStr) : ∃ stack', AtStmt stack' ∧
    Yyparse.run (k + 2) ⟨(5, .intval n) :: (1, .strval c) :: stack, yychar, x, 0, ts, inj⟩ =
      if (Yyparse.read ⟨stack', yychar, x, 0, ts, inj ++ [(c, n)]⟩).yychar = 0 then some (0, inj ++ [(c, n)])
      else (Yyparse.read ⟨stack', yychar, x, 0, ts, inj ++ [(c, n)]⟩).run k := by
  rcases h with ⟨v, rfl⟩ | ⟨v, w, rfl⟩
  · refine ⟨[(2, .strval c), (0, v)], Or.inr ⟨_, _, rfl⟩, ?_⟩
    have hround : Yyparse.round ⟨[(5, .intval n), (1, .strval c), (0, v)], yychar, x, 0, ts, inj⟩ =
      .yyloop ⟨[(3, .strval c), (0, v)], yychar, x, 0, ts, inj ++ [(c, n)]⟩ := rfl
    rw [run_yyloop hround]
    exact run_stmtlist rfl
  · refine ⟨[(2, v), (0, w)], Or.inr ⟨_, _, rfl⟩, ?_⟩
    have hround : Yyparse.round ⟨[(5, .intval n), (1, .strval c), (2, v), (0, w)], yychar, x, 0, ts, inj⟩ =
      .yyloop ⟨[(6, .strval c), (2, v), (0, w)], yychar, x, 0, ts, inj ++ [(c, n)]⟩ := rfl
    rw [run_yyloop hround]
    exact run_stmtlist rfl

/-! Where no statement follows, the recovery finds no state that shifts the error. -/

theorem round_not_eclass {t : Token} (h : AtStmt stack) (ht : ∀ c, t ≠ .eclass c) :
    Yyparse.round ⟨stack, t.code, x, 0, ts, inj⟩ = .done 1 inj := by
  cases t with
  | eclass c => exact absurd rfl (ht c)
  | comma => rcases h with ⟨v, rfl⟩ | ⟨v, w, rfl⟩ <;> rfl
  | count n => rcases h with ⟨v, rfl⟩ | ⟨v, w, rfl⟩ <;> rfl

theorem round_number (h : AtStmt stack) :
    Yyparse.round ⟨(1, a) :: stack, -1, x, 0, .count n :: ts, inj⟩ = .done 1 inj := by
  rcases h with ⟨v, rfl⟩ | ⟨v, w, rfl⟩ <;> rfl

theorem round_not_count (h : AtStmt stack) (hts : ∀ n ts', ts ≠ .count n :: ts') :
    Yyparse.round ⟨(4, b) :: (1, a) :: stack, -1, x, 0, ts, inj⟩ = .done 1 inj := by
  cases ts with
  | nil => rcases h with ⟨v, rfl⟩ | ⟨v, w, rfl⟩ <;> rfl
  | cons t ts =>
    cases t with
    | count n => exact absurd rfl (hts n ts)
    | comma => rcases h with ⟨v, rfl⟩ | ⟨v, w, rfl⟩ <;> rfl
    | eclass d => rcases h with ⟨v, rfl⟩ | ⟨v, w, rfl⟩ <;> rfl

end

/-! ## The statements -/

/-- What the parser makes of a list of tokens, the first of them in hand. -/
def verdict (inj : List (CStr × ℤ)) (ts : List Token) : Option (ℤ × List (CStr × ℤ)) :=
  some (if (stmtsOf ts).2 = [] then 0 else 1, inj ++ (stmtsOf ts).1.map ScriptStmt.value)

theorem verdict_nil (inj : List (CStr × ℤ)) : verdict inj [] = some (0, inj) :=
  congrArg (fun l => some (0, l)) (List.append_nil inj)

theorem verdict_none {inj : List (CStr × ℤ)} {ts : List Token} (hne : ts ≠ []) (h : stmtsOf ts = ([], ts)) :
    verdict inj ts = some (1, inj) := by
  rw [verdict, h, if_neg hne, List.map_nil, List.append_nil]

theorem verdict_cons {inj : List (CStr × ℤ)} {ts : List Token} (s : ScriptStmt) (ts' : List Token)
    (h : stmtsOf ts = (s :: (stmtsOf ts').1, (stmtsOf ts').2)) : verdict inj ts = verdict (inj ++ [s.value]) ts' := by
  rw [verdict, verdict, h, List.map_cons, List.append_assoc, List.singleton_append]

theorem stmtsOf_not_eclass {t : Token} (ht : ∀ c, t ≠ .eclass c) (ts : List Token) :
    stmtsOf (t :: ts) = ([], t :: ts) := by
  cases t with
  | eclass c => exact absurd rfl (ht c)
  | comma => rfl
  | count n => rfl

theorem stmtsOf_not_count {c : CStr} {ts : List Token} (hts : ∀ n ts', ts ≠ .count n :: ts') :
    stmtsOf (.eclass c :: .comma :: ts) = ([], .eclass c :: .comma :: ts) := by
  cases ts with
  | nil => rfl
  | cons t ts =>
    cases t with
    | count n => exact absurd rfl (hts n ts)
    | comma => rfl
    | eclass d => rfl

/-- **From one statement to the next.** -/
theorem run_stmts {stack : List (ℕ × Yystype)} (h : AtStmt stack) (x : Yystype) (t : Token) (ts : List Token)
    (inj : List (CStr × ℤ)) {k : ℕ} (hk : 6 * (ts.length + 1) ≤ k) :
    Yyparse.run k ⟨stack, t.code, t.lval x, 0, ts, inj⟩ = verdict inj (t :: ts) := by
  -- On the tokens that are left: a statement takes six rounds at most and leads back to `AtStmt`.
  induction hn : ts.length using Nat.strong_induction_on generalizing stack x t ts inj k with
  | _ len ih =>
    subst hn
    obtain ⟨k, rfl⟩ := Nat.exists_eq_add_of_le' (show 6 ≤ k by omega)
    rcases exists_or_forall_not (fun c => t = .eclass c) with ⟨c, rfl⟩ | ht
    · show Yyparse.run (k + 5 + 1) ⟨stack, 259, .strval c, 0, ts, inj⟩ = _
      rw [run_yyloop (round_eclass h)]
      cases ts with
      | nil =>
        obtain ⟨stack', -, hrun⟩ := run_stmt h (k + 2) 1 0 (.strval c) [] inj c
        rw [run_yyloop round_end, hrun]
        rfl
      | cons t ts =>
        rw [List.length_cons] at hk ih
        cases t with
        | count n =>
          rw [verdict_none (List.cons_ne_nil _ _) rfl]
          exact run_done (round_number h)
        | eclass d =>
          obtain ⟨stack', h', hrun⟩ := run_stmt h (k + 2) 1 259 (.strval d) ts inj c
          rw [run_yyloop round_next, hrun, verdict_cons ⟨c, none⟩ (.eclass d :: ts) rfl]
          exact ih ts.length (Nat.lt_succ_self _) h' .undef (.eclass d) ts (inj ++ [(c, 1)]) (by omega) rfl
        | comma =>
          rw [run_yyloop round_comma]
          rcases exists_or_forall_not (fun r : ℤ × List Token => ts = .count r.1 :: r.2) with ⟨⟨n, ts⟩, rfl⟩ | hts
          · obtain ⟨stack', h', hrun⟩ := run_stmt h k n (-1) (.intval n) ts inj c
            rw [run_yyloop round_count, run_yyloop round_repetition, hrun, verdict_cons ⟨c, some n⟩ ts rfl]
            rw [List.length_cons] at hk ih
            cases ts with
            | nil =>
              rw [verdict_nil]
              rfl
            | cons t ts =>
              have hread : Yyparse.read ⟨stack', -1, .intval n, 0, t :: ts, inj ++ [(c, n)]⟩ =
                  ⟨stack', t.code, t.lval (.intval n), 0, ts, inj ++ [(c, n)]⟩ := rfl
              rw [hread, if_neg t.code_ne_zero]
              rw [List.length_cons] at hk ih
              exact ih ts.length (by omega) h' (.intval n) t ts (inj ++ [(c, n)]) (by omega) rfl
          · rw [verdict_none (List.cons_ne_nil _ _) (stmtsOf_not_count fun n ts' => hts (n, ts'))]
            exact run_done (round_not_count h fun n ts' => hts (n, ts'))
    · rw [verdict_none (List.cons_ne_nil _ _) (stmtsOf_not_eclass ht ts)]
      exact run_done (round_not_eclass h ht)

theorem run_congr {p q : Yyparse} (h : p.round = q.round) (k : ℕ) : p.run k = q.run k := by
  cases k with
  | zero => rfl
  | succ k => rw [Yyparse.run, Yyparse.run, h]

/-- **The parser injects the statements in front**, and returns 0 if there is nothing else. -/
theorem yyparse_eq (ts : List Token) :
    yyparse ts = some (if ts ≠ [] ∧ (stmtsOf ts).2 = [] then 0 else 1, (stmtsOf ts).1.map ScriptStmt.value) := by
  cases ts with
  | nil => rfl
  | cons t ts =>
    have hrun := run_stmts (Or.inl ⟨.undef, rfl⟩) .undef t ts [] (Nat.le_succ (6 * (ts.length + 1)))
    have hround : Yyparse.round { toks := t :: ts } =
        Yyparse.round ⟨[(0, .undef)], t.code, t.lval .undef, 0, ts, []⟩ := by
      cases t <;> rfl
    rw [verdict, List.nil_append] at hrun
    rw [yyparse, run_congr hround]
    refine Eq.trans hrun ?_
    simp only [ne_eq, reduceCtorEq, not_false_eq_true, true_and]

/-! ## The grammar derives what is accepted -/

/-- The texts of the nonterminals. -/
def ntWords : ScriptNt → List TokenKind → Prop
  | .stmtlist, w => ∃ ss : List ScriptStmt, ss ≠ [] ∧ w = (ss.flatMap ScriptStmt.tokens).map Token.kind
  | .stmt, w => ∃ s : ScriptStmt, w = s.tokens.map Token.kind
  | .repetition, w => w = [] ∨ w = [.comma, .count]

/-- The words that a sentential form stands for. -/
def formWords : List (Symbol TokenKind ScriptNt) → List TokenKind → Prop
  | [], w => w = []
  | .terminal k :: us, w => ∃ w', w = k :: w' ∧ formWords us w'
  | .nonterminal a :: us, w => ∃ u v, w = u ++ v ∧ ntWords a u ∧ formWords us v

theorem formWords_append {us vs : List (Symbol TokenKind ScriptNt)} {w : List TokenKind} :
    formWords (us ++ vs) w ↔ ∃ u v, w = u ++ v ∧ formWords us u ∧ formWords vs v := by
  induction us generalizing w with
  | nil => simp [formWords]
  | cons s us ih =>
    cases s with
    | terminal k =>
      simp only [List.cons_append, formWords, ih]
      constructor
      · rintro ⟨w', rfl, u, v, rfl, hu, hv⟩
        exact ⟨k :: u, v, rfl, ⟨u, rfl, hu⟩, hv⟩
      · rintro ⟨_, v, rfl, ⟨u, rfl, hu⟩, hv⟩
        exact ⟨u ++ v, rfl, u, v, rfl, hu, hv⟩
    | nonterminal a =>
      simp only [List.cons_append, formWords, ih]
      constructor
      · rintro ⟨x, _, rfl, hx, u, v, rfl, hu, hv⟩
        exact ⟨x ++ u, v, (List.append_assoc x u v).symm, ⟨x, u, rfl, hx, hu⟩, hv⟩
      · rintro ⟨_, v, rfl, ⟨x, u, rfl, hx, hu⟩, hv⟩
        exact ⟨x, u ++ v, List.append_assoc x u v, hx, u, v, rfl, hu, hv⟩

theorem formWords_terminals (w : List TokenKind) : formWords (w.map .terminal) w := by
  induction w with
  | nil => rfl
  | cons k w ih => exact ⟨w, rfl, ih⟩

/-- A rule only replaces a nonterminal by what it stands for. -/
theorem formWords_rule {r : ContextFreeRule TokenKind ScriptNt} (hr : r ∈ scriptRules) {w : List TokenKind}
    (h : formWords r.output w) : ntWords r.input w := by
  simp only [scriptRules, List.mem_cons, List.not_mem_nil, or_false] at hr
  rcases hr with rfl | rfl | rfl | rfl | rfl
  · obtain ⟨_, _, rfl, ⟨ss, -, rfl⟩, _, _, rfl, ⟨s, rfl⟩, rfl⟩ := h
    refine ⟨ss ++ [s], List.append_ne_nil_of_right_ne_nil ss (List.cons_ne_nil s []), ?_⟩
    simp only [List.flatMap_append, List.flatMap_cons, List.flatMap_nil, List.map_append, List.append_nil]
  · obtain ⟨_, _, rfl, ⟨s, rfl⟩, rfl⟩ := h
    exact ⟨[s], List.cons_ne_nil s [], by simp only [List.flatMap_cons, List.flatMap_nil, List.append_nil]⟩
  · obtain ⟨_, rfl, _, _, rfl, rfl | rfl, rfl⟩ := h
    · exact ⟨⟨[], none⟩, rfl⟩
    · exact ⟨⟨[], some 0⟩, rfl⟩
  · obtain ⟨_, rfl, _, rfl, rfl⟩ := h
    exact Or.inr rfl
  · exact Or.inl h

theorem formWords_produces {us vs : List (Symbol TokenKind ScriptNt)} (h : scriptGrammar.Produces us vs)
    {w : List TokenKind} (hw : formWords vs w) : formWords us w := by
  obtain ⟨r, hr, hrew⟩ := h
  obtain ⟨p, q, rfl, rfl⟩ := hrew.exists_parts
  obtain ⟨_, z, rfl, hpo, hz⟩ := formWords_append.mp hw
  obtain ⟨x, y, rfl, hx, hy⟩ := formWords_append.mp hpo
  have hnt : formWords [.nonterminal r.input] y :=
    ⟨y, [], (List.append_nil y).symm, formWords_rule (List.mem_toFinset.mp hr) hy, rfl⟩
  exact formWords_append.mpr ⟨x ++ y, z, rfl, formWords_append.mpr ⟨x, y, rfl, hx, hnt⟩, hz⟩

theorem formWords_derives {us : List (Symbol TokenKind ScriptNt)} {w : List TokenKind}
    (h : scriptGrammar.Derives us (w.map .terminal)) : formWords us w := by
  induction h using Relation.ReflTransGen.head_induction_on with
  | refl => exact formWords_terminals w
  | head hprod _ ih => exact formWords_produces hprod ih

theorem derives_rule {r : ContextFreeRule TokenKind ScriptNt} (hr : r ∈ scriptRules) :
    scriptGrammar.Derives [.nonterminal r.input] r.output :=
  ContextFreeGrammar.Produces.single ⟨r, List.mem_toFinset.mpr hr, .input_output⟩

theorem derives_stmt (s : ScriptStmt) :
    scriptGrammar.Derives [.nonterminal .stmt] ((s.tokens.map Token.kind).map .terminal) := by
  have hstmt := derives_rule (r := ⟨.stmt, [.terminal .eclass, .nonterminal .repetition]⟩) (by simp [scriptRules])
  obtain ⟨c, count⟩ := s
  cases count with
  | none =>
    have hrep := derives_rule (r := ⟨.repetition, []⟩) (by simp [scriptRules])
    exact hstmt.trans (hrep.append_left [.terminal .eclass])
  | some n =>
    have hrep := derives_rule (r := ⟨.repetition, [.terminal .comma, .terminal .count]⟩) (by simp [scriptRules])
    exact hstmt.trans (hrep.append_left [.terminal .eclass])

theorem derives_stmts {ss : List ScriptStmt} (hne : ss ≠ []) :
    scriptGrammar.Derives [.nonterminal .stmtlist] (((ss.flatMap ScriptStmt.tokens).map Token.kind).map .terminal) := by
  induction ss using List.reverseRecOn with
  | nil => exact absurd rfl hne
  | append_singleton ss s ih =>
    rw [List.flatMap_append, List.map_append, List.map_append, List.flatMap_singleton]
    by_cases hss : ss = []
    · have hlist := derives_rule (r := ⟨.stmtlist, [.nonterminal .stmt]⟩) (by simp [scriptRules])
      rw [hss]
      exact hlist.trans (derives_stmt s)
    · have hlist := derives_rule (r := ⟨.stmtlist, [.nonterminal .stmtlist, .nonterminal .stmt]⟩) (by simp [scriptRules])
      exact hlist.trans (((ih hss).append_right _).trans ((derives_stmt s).append_left _))

/-- **The grammar derives the lists of statements.** -/
theorem mem_scriptGrammar {w : List TokenKind} :
    w ∈ scriptGrammar.language ↔ ∃ ss : List ScriptStmt, ss ≠ [] ∧ w = (ss.flatMap ScriptStmt.tokens).map Token.kind := by
  constructor
  · intro h
    obtain ⟨_, _, rfl, hlist, rfl⟩ := formWords_derives h
    rw [List.append_nil]
    exact hlist
  · rintro ⟨ss, hne, rfl⟩
    exact derives_stmts hne

theorem Token.kind_eclass {t : Token} (h : t.kind = .eclass) : ∃ c, t = .eclass c := by
  cases t with
  | eclass c => exact ⟨c, rfl⟩
  | _ => cases h

theorem Token.kind_comma {t : Token} (h : t.kind = .comma) : t = .comma := by
  cases t with
  | comma => rfl
  | _ => cases h

theorem Token.kind_count {t : Token} (h : t.kind = .count) : ∃ n, t = .count n := by
  cases t with
  | count n => exact ⟨n, rfl⟩
  | _ => cases h

theorem exists_stmts {ts : List Token} (ss : List ScriptStmt)
    (h : ts.map Token.kind = (ss.flatMap ScriptStmt.tokens).map Token.kind) :
    ∃ ss' : List ScriptStmt, ss'.flatMap ScriptStmt.tokens = ts := by
  induction ss generalizing ts with
  | nil => exact ⟨[], (List.map_eq_nil_iff.mp h).symm⟩
  | cons s ss ih =>
    obtain ⟨c, count⟩ := s
    cases count with
    | none =>
      obtain ⟨t, ts, rfl, ht, hts⟩ := List.map_eq_cons_iff.mp h
      obtain ⟨d, rfl⟩ := Token.kind_eclass ht
      obtain ⟨ss', rfl⟩ := ih hts
      exact ⟨⟨d, none⟩ :: ss', rfl⟩
    | some n =>
      obtain ⟨t, _, rfl, ht, hrep⟩ := List.map_eq_cons_iff.mp h
      obtain ⟨t', _, rfl, ht', hcount⟩ := List.map_eq_cons_iff.mp hrep
      obtain ⟨t'', ts, rfl, ht'', hts⟩ := List.map_eq_cons_iff.mp hcount
      obtain ⟨d, rfl⟩ := Token.kind_eclass ht
      obtain ⟨m, rfl⟩ := Token.kind_count ht''
      obtain ⟨ss', rfl⟩ := ih hts
      rw [Token.kind_comma ht']
      exact ⟨⟨d, some m⟩ :: ss', rfl⟩

theorem stmtsOf_stmts (ss : List ScriptStmt) : stmtsOf (ss.flatMap ScriptStmt.tokens) = (ss, []) := by
  induction ss with
  | nil => rfl
  | cons s ss ih =>
    obtain ⟨c, count⟩ := s
    cases count with
    | none =>
      cases ss with
      | nil => rfl
      | cons s ss =>
        have hstep : stmtsOf ((⟨c, none⟩ :: s :: ss).flatMap ScriptStmt.tokens) =
            (⟨c, none⟩ :: (stmtsOf ((s :: ss).flatMap ScriptStmt.tokens)).1,
              (stmtsOf ((s :: ss).flatMap ScriptStmt.tokens)).2) := rfl
        rw [hstep, ih]
    | some n =>
      have hstep : stmtsOf ((⟨c, some n⟩ :: ss).flatMap ScriptStmt.tokens) =
          (⟨c, some n⟩ :: (stmtsOf (ss.flatMap ScriptStmt.tokens)).1, (stmtsOf (ss.flatMap ScriptStmt.tokens)).2) := rfl
      rw [hstep, ih]

/-- The texts of the grammar are those with nothing behind the statements. -/
theorem mem_scriptGrammar_iff {ts : List Token} :
    ts.map Token.kind ∈ scriptGrammar.language ↔ ts ≠ [] ∧ (stmtsOf ts).2 = [] := by
  rw [mem_scriptGrammar]
  constructor
  · rintro ⟨ss, hne, h⟩
    obtain ⟨ss', rfl⟩ := exists_stmts ss h
    refine ⟨?_, by rw [stmtsOf_stmts]⟩
    intro hnil
    rw [hnil] at h
    obtain ⟨s, ss, rfl⟩ := List.exists_cons_of_ne_nil hne
    exact List.cons_ne_nil _ _ h.symm
  · rintro ⟨hne, hnil⟩
    have h := stmtsOf_tokens ts
    rw [hnil, List.append_nil] at h
    refine ⟨(stmtsOf ts).1, ?_, by rw [h]⟩
    intro hnone
    rw [hnone] at h
    exact hne h.symm

/-- **The parser does what the grammar says**: it injects the statements in front, in their order, and returns 0 on
the texts of the grammar, where these are all there is, and 1 on the others. -/
theorem yyparse_spec (ts : List Token) : ∃ ret, yyparse ts = some (ret, (stmtsOf ts).1.map ScriptStmt.value) ∧
    (stmtsOf ts).1.flatMap ScriptStmt.tokens ++ (stmtsOf ts).2 = ts ∧
    (ts.map Token.kind ∈ scriptGrammar.language ∧ ret = 0 ∧ (stmtsOf ts).2 = [] ∨
      ts.map Token.kind ∉ scriptGrammar.language ∧ ret = 1) := by
  refine ⟨_, yyparse_eq ts, stmtsOf_tokens ts, ?_⟩
  rw [mem_scriptGrammar_iff]
  by_cases h : ts ≠ [] ∧ (stmtsOf ts).2 = []
  · exact Or.inl ⟨h, if_pos h, h.2⟩
  · exact Or.inr ⟨h, if_neg h⟩

theorem fminject_eq {yyin : CStr} {cut : List (ScanRule × CStr)} (h : Scans true yyin cut) :
    fminject yyin = some ((stmtsOf (cut.filterMap ScanRule.token)).1.flatMap fun s =>
      List.replicate (s.count.getD 1).toNat s.eclass) := by
  have htoks : scanTokens yyin = cut.filterMap ScanRule.token := lexAll_scans h (Nat.lt_succ_self _)
  rw [fminject, htoks, yyparse_eq, Option.map_some, List.flatMap_map]
  rfl

theorem filter_injected (p : CStr → Bool) (ss : List ScriptStmt) :
    (ss.flatMap fun s => List.replicate (s.count.getD 1).toNat s.eclass).filter p =
      (ss.filter fun s => p s.eclass).flatMap fun s => List.replicate (s.count.getD 1).toNat s.eclass := by
  induction ss with
  | nil => rfl
  | cons s ss ih =>
    rw [List.flatMap_cons, List.filter_append, ih, List.filter_replicate, List.filter_cons]
    cases p s.eclass <;> rfl

theorem exists_count {cut : List (ScanRule × CStr)} {atBol : Bool} {yyin : CStr} (hcut : Scans atBol yyin cut)
    {n : ℤ} (hn : Token.count n ∈ cut.filterMap ScanRule.token) :
    ∃ ds, (.repetition, 'N' :: '=' :: ds) ∈ cut ∧ (∀ c ∈ ds, c.isDigit = true) ∧
      n = (min (Nat.ofDigitChars 10 ds 0 : ℤ) (2 ^ 63 - 1)).bmod (2 ^ 32) := by
  obtain ⟨⟨i, w⟩, hp, htok⟩ := List.mem_filterMap.mp hn
  cases i with
  | repetition =>
    obtain ⟨ds, rfl, hds⟩ := exists_digits (hcut.mem_lang _ hp)
    obtain rfl : repval ('N' :: '=' :: ds) = n := Token.count.inj (Option.some.inj htok)
    exact ⟨ds, hp, hds, atoiWrap_of_isDigit hds⟩
  | _ => cases htok

/-- **From a file to the messages**: the file is cut as the rules say, and what is sent is the class of each statement
in front, as often as its count says, if the queue takes messages of that length. -/
theorem fminject_sends (yyin : CStr) (msgsize : ℕ) : ∃ cut, Scans true yyin cut ∧ ∃ ss rest,
    stmtsOf (cut.filterMap ScanRule.token) = (ss, rest) ∧
    ss.flatMap ScriptStmt.tokens ++ rest = cut.filterMap ScanRule.token ∧
    (∀ s ∈ ss, ∀ n ∈ s.count, ∃ ds, (.repetition, 'N' :: '=' :: ds) ∈ cut ∧ (∀ c ∈ ds, c.isDigit = true) ∧
      n = (min (Nat.ofDigitChars 10 ds 0 : ℤ) (2 ^ 63 - 1)).bmod (2 ^ 32) ∧
      (Nat.ofDigitChars 10 ds 0 < 2 ^ 31 → n = Nat.ofDigitChars 10 ds 0)) ∧
    (fminject yyin).map (List.filter (Sendable msgsize)) =
      some ((ss.filter (Sendable msgsize ·.eclass)).flatMap fun s => List.replicate (s.count.getD 1).toNat s.eclass) := by
  obtain ⟨cut, hcut⟩ := exists_scans true yyin
  refine ⟨cut, hcut, _, _, rfl, stmtsOf_tokens _, fun s hs n hn => ?_, ?_⟩
  · have htok : Token.count n ∈ cut.filterMap ScanRule.token := by
      rw [← stmtsOf_tokens (cut.filterMap ScanRule.token)]
      refine List.mem_append_left _ (List.mem_flatMap.mpr ⟨s, hs, ?_⟩)
      rw [ScriptStmt.tokens, Option.mem_def.mp hn]
      exact List.mem_cons_of_mem _ (List.mem_cons_of_mem _ List.mem_cons_self)
    obtain ⟨ds, hmem, hds, hval⟩ := exists_count hcut htok
    refine ⟨ds, hmem, hds, hval, fun hlt => ?_⟩
    rw [hval, min_eq_left (by omega)]
    exact Int.bmod_eq_of_le_mul_two (by omega) (by omega)
  · rw [fminject_eq hcut, Option.map_some, Option.some.injEq, filter_injected]

end Fms
