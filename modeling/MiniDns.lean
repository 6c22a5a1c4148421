import MiniDns.AgedAnswers
import MiniDns.BlocklistComments
import MiniDns.CacheLifetime
import MiniDns.Dns.NameProgress
import MiniDns.Dns.RdataExtent
import MiniDns.Dns.StrictNames
import MiniDns.Dns64Agreement
import MiniDns.Doh
import MiniDns.Doq
import MiniDns.EdnsReplies
import MiniDns.HonestHierarchy
import MiniDns.LimitedReplies
import MiniDns.MultiForwarder
import MiniDns.QuotedValues
import MiniDns.ResolverContacts
import MiniDns.ServiceCounters
import MiniDns.ServiceUpstream
import MiniDns.Shutdown
import MiniDns.SignedAsSent
import MiniDns.SignedData
import MiniDns.UdpWorkers
import MiniDns.ZoneTransfer
import MiniDns.ZoneWire
