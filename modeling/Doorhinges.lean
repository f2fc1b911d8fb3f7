import Doorhinges.Lib.Machine
import Doorhinges.Lib.Fifo
import Doorhinges.Lib.Blocks
import Doorhinges.Lib.Links
import Doorhinges.Lib.DoublyLinked
import Doorhinges.Lib.CString
import Doorhinges.Lib.Redis
import Doorhinges.Lib.Program
import Doorhinges.Lib.Handled
import Doorhinges.Lib.Memory
import Doorhinges.Lib.Lease
import Doorhinges.Lib.Trace
import Doorhinges.Lib.Tickets
import Doorhinges.Lib.Threads
import Doorhinges.Lib.Pieces
import Doorhinges.Lib.Slices
import Doorhinges.Lib.Sweep
import Doorhinges.Lib.Replace
import Doorhinges.Lib.Bump
import Doorhinges.Lib.BlockBuffer
import Doorhinges.Lib.Columns
import Doorhinges.Lib.Fields
import Doorhinges.Lib.Pipeline
import Doorhinges.Lib.Runs
import Doorhinges.Query.Url
import Doorhinges.Query.Roundtrip
import Doorhinges.Lib.Cells
import Doorhinges.Lib.BitGroups
import Doorhinges.Query.Decoder
import Doorhinges.Query.Encoder
import Doorhinges.Query.Lookup
import Doorhinges.Report.Model
import Doorhinges.Report.Leftovers
import Doorhinges.Report.Answer
import Doorhinges.Report.PlatformId
import Doorhinges.Report.Dates
import Doorhinges.Report.Given
import Doorhinges.Report.WellFormed
import Doorhinges.Lib.JsonFields
import Doorhinges.Params.Model
import Doorhinges.Params.Line
import Doorhinges.Params.Stored
import Doorhinges.Params.Buffer
import Doorhinges.Params.Flagged
import Doorhinges.Params.Signed
import Doorhinges.Params.Md5
import Doorhinges.Params.Order
import Doorhinges.Params.Address
import Doorhinges.AdBody.Template
import Doorhinges.AdBody.Model
import Doorhinges.AdBody.Sessions
import Doorhinges.Messages.ReadIds
import Doorhinges.Messages.Stored
import Doorhinges.Hashtable.Model
import Doorhinges.Hashtable.Links
import Doorhinges.Hashtable.Invariant
import Doorhinges.Hashtable.Entries
import Doorhinges.Hashtable.Pooled
import Doorhinges.Hashtable.Growing
import Doorhinges.Hashtable.Load
import Doorhinges.Hashtable.NextPrime
import Doorhinges.DbPool.Model
import Doorhinges.DbPool.Exclusive
import Doorhinges.DbPool.Select
import Doorhinges.CycleQueue.Model
import Doorhinges.CycleQueue.Ring
import Doorhinges.CycleQueue.Steps
import Doorhinges.CycleQueue.Fifo
import Doorhinges.CycleQueue.Structure
import Doorhinges.CycleQueue.Shortage
import Doorhinges.CycleQueue.Buffers
import Doorhinges.CycleQueue.Handover
import Doorhinges.ConnPool.Model
import Doorhinges.ConnPool.Handout
import Doorhinges.LogWork.Model
import Doorhinges.LogWork.Wakeup
import Doorhinges.LogWork.Drained
import Doorhinges.Callback.Model
import Doorhinges.Callback.System
import Doorhinges.Callback.Discipline
import Doorhinges.Callback.Gate
import Doorhinges.Callback.Charging
import Doorhinges.Callback.Solo
import Doorhinges.Callback.Overrun
import Doorhinges.Callback.ShowLock
import Doorhinges.Callback.ShowRecord
import Doorhinges.Callback.ClickCount
import Doorhinges.Callback.ClickLock
import Doorhinges.Callback.Conserved
import Doorhinges.Lib.Decimal
import Doorhinges.GetAd.Maps
import Doorhinges.GetAd.Model
import Doorhinges.GetAd.Selected
import Doorhinges.GetAd.Located
import Doorhinges.GetAd.Picked
import Doorhinges.GetAd.Chosen
import Doorhinges.GetAd.AreaFilter
import Doorhinges.GetAd.AreaTags
import Doorhinges.GetAd.Commands
import Doorhinges.GetAd.Aligned
import Doorhinges.GetAd.Intersection
import Doorhinges.GetAd.GivenBack
import Doorhinges.Lib.Assumed
import Doorhinges.Keepalive.Model
import Doorhinges.Keepalive.Auth
import Doorhinges.Keepalive.Authenticated
import Doorhinges.Keepalive.Consistent
import Doorhinges.ShowCap.Model
import Doorhinges.ShowCap.Discipline
import Doorhinges.ShowCap.Enforced
import Doorhinges.Cgi.Model
import Doorhinges.Cgi.Unescape
import Doorhinges.Cgi.OwnText
import Doorhinges.Cgi.Encoded
import Doorhinges.Cgi.Agree
import Doorhinges.Dispatch.Model
import Doorhinges.Dispatch.Answered
import Doorhinges.Base64.Model
import Doorhinges.Base64.Roundtrip
import Doorhinges.AisGet.Model
import Doorhinges.AisGet.Buffered
import Doorhinges.AisGet.Isolated
import Doorhinges.AisGet.LogRecord
import Doorhinges.AisGet.SessionRecord
import Doorhinges.AisGet.StrSplit
import Doorhinges.AisGet.SdkVersion
import Doorhinges.Wire.Framing
import Doorhinges.Wire.Lines
import Doorhinges.Wire.Faithful
import Doorhinges.Wire.Reply
import Doorhinges.Wire.Delivered
import Doorhinges.BlockingList.Semaphore
import Doorhinges.Messages.Groups
import Doorhinges.AdBody.Returned
import Doorhinges.AdBody.NearWidth
import Doorhinges.AdBody.ReplaceChar
import Doorhinges.AdBody.StrReplace
import Doorhinges.AdBody.Expansion
import Doorhinges.AdBody.IdList
import Doorhinges.AdBody.Inside
import Doorhinges.ShmQueue.Mutex
import Doorhinges.ShmQueue.Area
import Doorhinges.ShmQueue.Layout
import Doorhinges.ShmQueue.Fifo
import Doorhinges.Lib.Stream
import Doorhinges.Hiredis.Reader
import Doorhinges.Hiredis.Cut
import Doorhinges.Hiredis.Wire
import Doorhinges.Hiredis.Format
import Doorhinges.Hiredis.Exchange
import Doorhinges.JsonC.Object
import Doorhinges.JsonC.Tokener
import Doorhinges.JsonC.Safe
import Doorhinges.JsonC.Scan
import Doorhinges.JsonC.RoundTrip
import Doorhinges.JsonC.Energy
import Doorhinges.JsonC.Plain
import Doorhinges.AisGet.SessionParsed
