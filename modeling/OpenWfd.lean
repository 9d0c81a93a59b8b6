import OpenWfd.Support.SizeT
import OpenWfd.Support.Memory
import OpenWfd.Support.CString
import OpenWfd.Support.Numeral
import OpenWfd.Support.Strings
import OpenWfd.Support.Quoted
import OpenWfd.Support.Cuts
import OpenWfd.Support.Heap
import OpenWfd.Support.Access
import OpenWfd.Support.BinarySearch
import OpenWfd.Support.Kernel
import OpenWfd.Support.DList
import OpenWfd.Support.Lts
import OpenWfd.Support.Trace
import OpenWfd.Support.Reader
import OpenWfd.Support.Loop
import OpenWfd.Support.Octets
import OpenWfd.Support.OnesComplement
import OpenWfd.Support.Tlv
import OpenWfd.Support.Tenure
import OpenWfd.Support.Phases
import OpenWfd.Ring.Definitions
import OpenWfd.Ring.Content
import OpenWfd.Ring.Grow
import OpenWfd.Ring.Fifo
import OpenWfd.DList.Loops
import OpenWfd.DList.Sequence
import OpenWfd.Decoder.Definitions
import OpenWfd.Decoder.Parser
import OpenWfd.Decoder.Chunks
import OpenWfd.Decoder.Storage
import OpenWfd.Decoder.Steps
import OpenWfd.Decoder.Sanitize
import OpenWfd.Decoder.Framing
import OpenWfd.Decoder.Restart
import OpenWfd.Decoder.Quoting
import OpenWfd.Decoder.Shape
import OpenWfd.Decoder.Messages
import OpenWfd.Decoder.Squeeze
import OpenWfd.Decoder.Normal
import OpenWfd.Decoder.Sections
import OpenWfd.Decoder.Scan
import OpenWfd.Decoder.Lengths
import OpenWfd.Tokenizer.Definitions
import OpenWfd.Tokenizer.Position
import OpenWfd.Tokenizer.Room
import OpenWfd.Tokenizer.Tokens
import OpenWfd.Tokenizer.Lexing
import OpenWfd.Ctrl.Definitions
import OpenWfd.Ctrl.Acts
import OpenWfd.Ctrl.Stream
import OpenWfd.Ctrl.Protocol
import OpenWfd.Ctrl.Reopen
import OpenWfd.Wpa.Request
import OpenWfd.Wpa.Replies
import OpenWfd.Wpa.Timeouts
import OpenWfd.Wpa.Event
import OpenWfd.Wpa.Names
import OpenWfd.Wpa.Tokens
import OpenWfd.Wpa.Marks
import OpenWfd.Wpa.Bounded
import OpenWfd.Wpa.Complete
import OpenWfd.Wpa.Words
import OpenWfd.Wpa.Print
import OpenWfd.Wpa.Kinds
import OpenWfd.Wpa.Priority
import OpenWfd.Wpa.Macs
import OpenWfd.Wpa.Open
import OpenWfd.Wpa.Moves
import OpenWfd.Wpa.Resources
import OpenWfd.Wpa.KeepAlive
import OpenWfd.P2pd.Definitions
import OpenWfd.P2pd.Registry
import OpenWfd.P2pd.Fanout
import OpenWfd.Ie.Definitions
import OpenWfd.Ie.Rounds
import OpenWfd.Ie.Reassembly
import OpenWfd.Ie.Bounded
import OpenWfd.Ie.Safety
import OpenWfd.Dhcp.Packet
import OpenWfd.Dhcp.Options
import OpenWfd.Dhcp.Build
import OpenWfd.Dhcp.Wire
import OpenWfd.Dhcp.Receive
import OpenWfd.Dhcp.Server
import OpenWfd.Dhcp.Leases
import OpenWfd.Dhcp.Replies
import OpenWfd.Dhcp.Offers
import OpenWfd.Dhcp.Service
import OpenWfd.Dhcp.Client
import OpenWfd.Dhcp.Requests
import OpenWfd.Dhcp.Hearing
import OpenWfd.Dhcp.Runs
import OpenWfd.Dhcp.Timeouts
import OpenWfd.Dhcp.Heeding
import OpenWfd.Dhcp.Handshake
import OpenWfd.Dhcp.Network
import OpenWfd.Dhcp.ClientRuns
import OpenWfd.Dhcp.Search
import OpenWfd.Dhcp.Agreement
import OpenWfd.Dhcp.Progress
