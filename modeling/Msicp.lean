import Msicp.Content.MimeExact
import Msicp.Dialog.Refresh
import Msicp.Dialog.RequestUas
import Msicp.Dialog.RouteHeap
import Msicp.Dset.PrintDset
import Msicp.Fifo.ReadLines
import Msicp.Fline.Grammar
import Msicp.Forward.SendSocket
import Msicp.Headers.HeaderList
import Msicp.Headers.HnameExact
import Msicp.Lumps.BuildLength
import Msicp.Lumps.DelLumps
import Msicp.Mem.FMallocBystanders
import Msicp.Mem.FMallocTail
import Msicp.Mem.QMallocHistory
import Msicp.Methods.MethodLists
import Msicp.Mysql.Calls
import Msicp.Nathelper.Timer
import Msicp.Property.Parse
import Msicp.Racc.BillingRecord
import Msicp.Racc.BillingRuns
import Msicp.Re.SubstRight
import Msicp.Registrar.AllOrNothing
import Msicp.Registrar.BuildContact
import Msicp.Registrar.MaxContacts
import Msicp.Registrar.ReplyContacts
import Msicp.Registrar.Unique
import Msicp.Reply.BuildLength
import Msicp.Resolve.AddrExact
import Msicp.Resolve.RecordsExact
import Msicp.Route.Evaluation
import Msicp.Rr.LooseParams
import Msicp.Rr.LooseRoute
import Msicp.Tcp.Framing
import Msicp.Tcp.LengthSource
import Msicp.Tcp.Pipelining
import Msicp.TcpMain.Chains
import Msicp.TcpMain.PassingRuns
import Msicp.TcpMain.TcpSend
import Msicp.Tm.AssembleRouteSet
import Msicp.Tm.Callbacks
import Msicp.Tm.Callid
import Msicp.Tm.Cancel
import Msicp.Tm.DeleteList
import Msicp.Tm.FinalResponse
import Msicp.Tm.FreeCell
import Msicp.Tm.LookupCallid
import Msicp.Tm.NewtranUnique
import Msicp.Tm.ReplyLight
import Msicp.Tm.ReplyLock
import Msicp.Tm.ReplyMatching
import Msicp.To.Exact
import Msicp.Unixsock.ReadLineset
import Msicp.Usrloc.ContactOrder
import Msicp.Usrloc.UDomainLists
import Msicp.Usrloc.WriteBack
import Msicp.Usrloc.WriteThrough
import Msicp.Worksmart.ForkRuns
import Msicp.Worksmart.Normalize
import Msicp.Worksmart.ShmRegistry
import Msicp.Worksmart.Token
