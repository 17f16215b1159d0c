import Fms.Lib.Run
import Fms.Lib.CString
import Fms.Lib.ListHead
import Fms.Lib.Keyed
import Fms.Lib.Circular
import Fms.Lib.Overlay
import Fms.Lib.RoseTree
import Fms.Event
import Fms.Payload
import Fms.Serd
import Fms.Ring
import Fms.Release
import Fms.Repaired
import Fms.Isolated
import Fms.EvRecord
import Fms.Adm.Caselist
import Fms.Adm.Exchange
import Fms.Adm.Race
import Fms.Mce.Dump
import Fms.Topo.Trie
import Fms.Routing
import Fms.Adm.Modlist
import Fms.Esc.Print
import Fms.Esc.Rules
import Fms.Conf.Subscribe
import Fms.Conf.Reread
import Fms.Adm.Registry
import Fms.Sources
import Fms.Topo.Memory
import Fms.Topo.Threads
import Fms.Topo.Bridges
import Fms.Topo.Storage
import Fms.Mce.DmiRanges
import Fms.Mce.DmiWalk
import Fms.Cache.Offline
import Fms.Adm.AddConf
import Fms.Dict.Refine
import Fms.Dict.Iterate
import Fms.Adm.Faulty
import Fms.Timer
import Fms.Inject.Scan
import Fms.Inject.Parse
import Fms.Inject.Deliver
