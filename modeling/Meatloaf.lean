import Meatloaf.Lib.Scan
import Meatloaf.Lib.Store
import Meatloaf.Lib.Bitmap
import Meatloaf.Lib.Bits
import Meatloaf.Lib.Cached
import Meatloaf.Lib.Trail
import Meatloaf.Lib.Run
import Meatloaf.Stream.Container
import Meatloaf.Text.U8Char
import Meatloaf.Text.Names
import Meatloaf.Text.Paths
import Meatloaf.Text.Url
import Meatloaf.Text.Numbers
import Meatloaf.Archive.Medium
import Meatloaf.Archive.Lnx
import Meatloaf.Archive.Arc
import Meatloaf.Archive.ArcWalk
import Meatloaf.Archive.ArcBits
import Meatloaf.Archive.Crunch
import Meatloaf.Archive.Squeeze
import Meatloaf.Archive.Wra
import Meatloaf.Archive.WraScan
import Meatloaf.Archive.WraTokens
import Meatloaf.Archive.WraExtract
import Meatloaf.Drive.Channel
import Meatloaf.Drive.Direct
import Meatloaf.Drive.Writes
import Meatloaf.Drive.Open
import Meatloaf.Drive.Handler
import Meatloaf.Drive.Command
import Meatloaf.Drive.Position
import Meatloaf.Drive.BlockArgs
import Meatloaf.Drive.Refused
import Meatloaf.Stream.Broker
import Meatloaf.Stream.Cache
import Meatloaf.Stream.Owner
import Meatloaf.Stream.Cd
import Meatloaf.Lib.Calls
import Meatloaf.Stream.Copy
import Meatloaf.Stream.FileCache
import Meatloaf.Stream.Receiver
import Meatloaf.Stream.Redirect
import Meatloaf.Disk.Geometry
import Meatloaf.Disk.Stream
import Meatloaf.Disk.Files
import Meatloaf.Disk.Format
import Meatloaf.Disk.Layout
import Meatloaf.Disk.Cursor
import Meatloaf.Disk.Bam
import Meatloaf.Disk.Alloc
import Meatloaf.Disk.Search
import Meatloaf.Lib.Chain
import Meatloaf.Lib.While
import Meatloaf.Lib.Lzw
import Meatloaf.Lib.Window
import Meatloaf.Lib.Faulty
import Meatloaf.Disk.Sound
import Meatloaf.Disk.Lookup
import Meatloaf.Disk.Scratch
import Meatloaf.Disk.Plan
import Meatloaf.Disk.Save
import Meatloaf.Disk.Finish
import Meatloaf.Disk.Recovery
import Meatloaf.Disk.Blank
import Meatloaf.Disk.Saves
import Meatloaf.Disk.Room
import Meatloaf.Disk.Atomic
import Meatloaf.Disk.Undelete
import Meatloaf.Disk.Session
import Meatloaf.Disk.Listing
import Meatloaf.Disk.Seek
import Meatloaf.Disk.Counts
import Meatloaf.Disk.Access
import Meatloaf.Disk.Halting
import Meatloaf.Disk.Tracks
import Meatloaf.Disk.G64
import Meatloaf.Disk.P64
import Meatloaf.Disk.RangeDecoder
import Meatloaf.Disk.Mfm
import Meatloaf.Disk.MfmTrack
import Meatloaf.Disk.MfmSector
import Meatloaf.Disk.Frame
import Meatloaf.Disk.Addressing
import Meatloaf.Disk.Refused
import Meatloaf.Disk.Shared
import Meatloaf.Hd.Partition
import Meatloaf.Hd.Cmd
import Meatloaf.Hd.Streams
import Meatloaf.Hd.Cfs
import Meatloaf.Hd.CfsPath
import Meatloaf.Hd.CfsData
import Meatloaf.Hd.CfsWalk
import Meatloaf.Hd.CfsCircles
import Meatloaf.Hd.Listed
import Meatloaf.Drive.DirChannel
import Meatloaf.Network.Http
import Meatloaf.Network.Sessions
import Meatloaf.Archive.Spy
import Meatloaf.Hd.CfsTree
import Meatloaf.Tape.Csm
import Meatloaf.Tape.Loaded
import Meatloaf.Tape.T64
import Meatloaf.Tape.Tap
import Meatloaf.Tape.Decoder
import Meatloaf.Tape.Reading
import Meatloaf.Tape.Pulses
import Meatloaf.Tape.Resume
import Meatloaf.Text.Wildcard
import Meatloaf.Text.Percent
import Meatloaf.Hd.Offset
import Meatloaf.Text.Punycode
import Meatloaf.Text.Ace
import Meatloaf.Text.Settled
import Meatloaf.Text.Coherent
import Meatloaf.Text.Reread
import Meatloaf.Archive.Container
import Meatloaf.Archive.Entries
import Meatloaf.Archive.Shared
import Meatloaf.Drive.Delivery
import Meatloaf.Drive.ImageFile
import Meatloaf.Drive.Memory
import Meatloaf.Network.Paging
import Meatloaf.Network.Seeking
import Meatloaf.Network.FullMode
import Meatloaf.Network.Pieces
import Meatloaf.Network.Conversions
import Meatloaf.Archive.LnxBounds
import Meatloaf.Archive.ArcRuns
import Meatloaf.Archive.ArcBytes
import Meatloaf.Disk.Flux
import Meatloaf.Drive.Pattern
import Meatloaf.Archive.Delimited
import Meatloaf.Text.Lookahead
import Meatloaf.Stream.Paged
import Meatloaf.Stream.Blocks
import Meatloaf.Disk.Links
import Meatloaf.Disk.RangeEncoder
import Meatloaf.Disk.P81
import Meatloaf.Disk.Written
import Meatloaf.Disk.Bare
import Meatloaf.Lib.Keyed
import Meatloaf.Disk.Contents
import Meatloaf.Disk.Account
import Meatloaf.Bus.FastLoader
import Meatloaf.Bus.FileDevice
import Meatloaf.Bus.Handler
import Meatloaf.Bus.Reading
import Meatloaf.Bus.Talking
import Meatloaf.Bus.Listening
import Meatloaf.Bus.Printing
import Meatloaf.Bus.Session
import Meatloaf.Bus.Loading
import Meatloaf.Bus.Drive
import Meatloaf.Bus.Image
