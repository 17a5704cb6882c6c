import Orion.Aster.Attribute
import Orion.Aster.Boundary
import Orion.Aster.Cascade
import Orion.Aster.Contents
import Orion.Aster.Coordinates
import Orion.Aster.Decode
import Orion.Aster.Descent
import Orion.Aster.Document
import Orion.Aster.Inherit
import Orion.Aster.Inline
import Orion.Aster.Layout
import Orion.Aster.Overlap
import Orion.Aster.Parse
import Orion.Aster.Pool
import Orion.Aster.Reads
import Orion.Aster.Roundtrip
import Orion.Aster.Script
import Orion.Aster.Selector
import Orion.Aster.Serial
import Orion.Aster.Source
import Orion.Aster.Text
import Orion.Aster.Tokens
import Orion.Aster.Tree
import Orion.Aster.Walk
import Orion.Boot.Exit
import Orion.Boot.Loader
import Orion.Boot.Segments
import Orion.Builtins
import Orion.Desktop.Cursor
import Orion.Desktop.Display
import Orion.Desktop.Drag
import Orion.Desktop.Drawing
import Orion.Desktop.Image
import Orion.Desktop.Layers
import Orion.Desktop.Model
import Orion.Desktop.Paint
import Orion.Desktop.Press
import Orion.Desktop.Reach
import Orion.Desktop.Steps
import Orion.Desktop.Terminal
import Orion.Desktop.UpToDate
import Orion.Dhcp.Acquire
import Orion.Dhcp.Agreement
import Orion.Dhcp.Client
import Orion.Dhcp.Options
import Orion.Dhcp.Packet
import Orion.Dhcp.Wire
import Orion.Disk.Agree
import Orion.Disk.Covers
import Orion.Disk.Fat16
import Orion.Disk.Geometry
import Orion.Disk.Image
import Orion.Disk.Iso
import Orion.Disk.Lookup
import Orion.Disk.Mkfat
import Orion.Disk.Mkiso
import Orion.Disk.Mount
import Orion.Disk.Search
import Orion.Graphics.Raw
import Orion.Graphics.Rect
import Orion.Http.Address
import Orion.Http.Agree
import Orion.Http.Boundary
import Orion.Http.ChunkWalk
import Orion.Http.Chunked
import Orion.Http.Complete
import Orion.Http.Downgrade
import Orion.Http.Fields
import Orion.Http.Frame
import Orion.Http.FrameExact
import Orion.Http.Get
import Orion.Http.Grammar
import Orion.Http.HeaderScan
import Orion.Http.Message
import Orion.Http.Request
import Orion.Http.Resolve
import Orion.Http.Resource
import Orion.Http.Response
import Orion.Http.Roundtrip
import Orion.Http.Sized
import Orion.Http.Truncated
import Orion.Http.Url
import Orion.Input.Queue
import Orion.Install.Copy
import Orion.Kernel.MainLoop
import Orion.Kernel.Pci
import Orion.Legacy.Image
import Orion.Legacy.Load
import Orion.Legacy.Stage2
import Orion.Lib.Argmax
import Orion.Lib.Calendar
import Orion.Lib.Chunks
import Orion.Lib.Cursor
import Orion.Lib.Division
import Orion.Lib.Filling
import Orion.Lib.Handoff
import Orion.Lib.Interrupted
import Orion.Lib.Line
import Orion.Lib.Logged
import Orion.Lib.Mealy
import Orion.Lib.Pool
import Orion.Lib.Ring
import Orion.Lib.Scan
import Orion.Lib.Sliding
import Orion.Lib.Splice
import Orion.Lib.Text
import Orion.Lib.Traced
import Orion.Lib.Words
import Orion.Machine
import Orion.Net.Bounds
import Orion.Net.Checksum
import Orion.Net.Client
import Orion.Net.Connect
import Orion.Net.DnsLookup
import Orion.Net.DnsQuery
import Orion.Net.DnsReply
import Orion.Net.DnsWire
import Orion.Net.Frames
import Orion.Net.Handlers
import Orion.Net.NextHop
import Orion.Net.Poll
import Orion.Net.Receive
import Orion.Net.State
import Orion.Net.Stream
import Orion.Net.Tcp
import Orion.Net.Trace
import Orion.Net.Wrap
import Orion.Net.Write
import Orion.Netdev.E1000
import Orion.Netdev.Intact
import Orion.Netdev.Pcnet
import Orion.Netdev.PcnetRx
import Orion.Netdev.Probe
import Orion.Netdev.Rtl8139
import Orion.Netdev.Virtio
import Orion.Netdev.VirtioRx
import Orion.Pmm.Enumerate
import Orion.Pmm.Map
import Orion.Pmm.Model
import Orion.Pmm.Safety
import Orion.Pmm.Scan
import Orion.Pmm.Session
import Orion.Tls.Clock
import Orion.Vela.Browser
import Orion.Vela.Failed
import Orion.Vela.History
import Orion.Vela.Image
import Orion.Vela.Lite
import Orion.Vela.Picture
import Orion.Vela.Resolve
import Orion.Vela.Script
import Orion.Vela.Session
import Orion.Vela.Url
