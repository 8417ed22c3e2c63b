import OpenbsdKernel.Lib.Loop
import OpenbsdKernel.Lib.IntervalList
import OpenbsdKernel.Sys.Errno
import OpenbsdKernel.Net.Bpf.Insn
import OpenbsdKernel.Net.Bpf.Filter
import OpenbsdKernel.Net.Bpf.Validate
import OpenbsdKernel.Kern.Extent.Basic
import OpenbsdKernel.Kern.Extent.Regions
import OpenbsdKernel.Kern.Extent.Runs
import OpenbsdKernel.Kern.Timeout.Wheel
import OpenbsdKernel.Kern.Timeout.Runs
import OpenbsdKernel.Kern.Rwlock.Basic
import OpenbsdKernel.Kern.Rwlock.Safety
import OpenbsdKernel.Lib.Ring
import OpenbsdKernel.Lib.Bitmap
import OpenbsdKernel.Kern.Tty.Clist
import OpenbsdKernel.Kern.Tty.Deque
import OpenbsdKernel.Kern.Tty.Runs
import OpenbsdKernel.Kern.Descrip.Basic
import OpenbsdKernel.Kern.Descrip.Table
import OpenbsdKernel.Kern.Descrip.Ops
import OpenbsdKernel.Kern.Descrip.Runs
import OpenbsdKernel.Crypto.Idgen
import OpenbsdKernel.Netinet.IpId
import OpenbsdKernel.Kern.Srp.Basic
import OpenbsdKernel.Kern.Srp.Safety
import OpenbsdKernel.Kern.Srp.Runs
import OpenbsdKernel.Kern.Sem.Undo
import OpenbsdKernel.Kern.Sem.Adjust
import OpenbsdKernel.Kern.Sem.Basic
import OpenbsdKernel.Kern.Sem.Semop
import OpenbsdKernel.Kern.Sem.System
import OpenbsdKernel.Kern.Sem.Safety
import OpenbsdKernel.Kern.Sem.Errors
import OpenbsdKernel.Kern.Sem.Owed
import OpenbsdKernel.Kern.Sockbuf.Basic
import OpenbsdKernel.Kern.Sockbuf.Compress
import OpenbsdKernel.Kern.Sockbuf.Append
import OpenbsdKernel.Kern.Sockbuf.Drop
import OpenbsdKernel.Kern.Sockbuf.Runs
import OpenbsdKernel.Kern.Pipe.Basic
import OpenbsdKernel.Kern.Pipe.Safety
import OpenbsdKernel.Netinet.Replay.Runs
import OpenbsdKernel.Lib.Reassembly
import OpenbsdKernel.Net.Pf.Fragment
import OpenbsdKernel.Net.Pf.Queue
import OpenbsdKernel.Net.Pf.Reassemble
import OpenbsdKernel.Net.Pf.Reassemble6
import OpenbsdKernel.Netinet.IpReass.Basic
import OpenbsdKernel.Netinet.IpReass.Count
import OpenbsdKernel.Netinet.IpReass.Datagram
import OpenbsdKernel.Netinet.IpReass.Runs
import OpenbsdKernel.Lib.SeqNum
import OpenbsdKernel.Netinet.Tcp.Reass
import OpenbsdKernel.Netinet.Tcp.Stream
import OpenbsdKernel.Netinet.Tcp.Sack
import OpenbsdKernel.Netinet.Tcp.Scoreboard
import OpenbsdKernel.Netinet.Tcp.SackRuns
import OpenbsdKernel.Lib.BinTree
import OpenbsdKernel.Sys.Tree.Splay
import OpenbsdKernel.Sys.Tree.SplayTop
import OpenbsdKernel.Sys.Tree.SplayLoop
import OpenbsdKernel.Sys.Tree.SplayRuns
import OpenbsdKernel.Lib.TreeZipper
import OpenbsdKernel.Sys.Tree.Rb
import OpenbsdKernel.Sys.Tree.RbHeap
import OpenbsdKernel.Sys.Tree.RbEdit
import OpenbsdKernel.Sys.Tree.RbBalance
import OpenbsdKernel.Sys.Tree.RbInsertColor
import OpenbsdKernel.Sys.Tree.RbRemoveColor
import OpenbsdKernel.Sys.Tree.RbSearch
import OpenbsdKernel.Sys.Tree.RbRuns
import OpenbsdKernel.Netinet6.Frag6.Basic
import OpenbsdKernel.Netinet6.Frag6.Runs
import OpenbsdKernel.Netinet.Tcp.SackReport
import OpenbsdKernel.Netinet.Tcp.SackReportRuns
import OpenbsdKernel.Kern.Pool.Basic
import OpenbsdKernel.Kern.Pool.Pages
import OpenbsdKernel.Kern.Pool.Threads
import OpenbsdKernel.Kern.Pool.Safety
import OpenbsdKernel.Kern.Pool.Requests
import OpenbsdKernel.Msdosfs.Fat.Entry
import OpenbsdKernel.Msdosfs.Fat.Usemap
import OpenbsdKernel.Msdosfs.Fat.Alloc
import OpenbsdKernel.Msdosfs.Fat.Runs
import OpenbsdKernel.Msdosfs.Fat.System
import OpenbsdKernel.Lib.OnesComplement
import OpenbsdKernel.Net.Slcompress.Basic
import OpenbsdKernel.Net.Slcompress.Codec
import OpenbsdKernel.Net.Slcompress.Runs
import OpenbsdKernel.Kern.Extent.Conflict
import OpenbsdKernel.Kern.Extent.DoAlloc
import OpenbsdKernel.Kern.Extent.Placement
import OpenbsdKernel.Kern.Extent.Search
import OpenbsdKernel.Kern.Extent.Answers
import OpenbsdKernel.Kern.Extent.BestFit
import OpenbsdKernel.Kern.Bufcache.Basic
import OpenbsdKernel.Kern.Bufcache.Queues
import OpenbsdKernel.Kern.Bufcache.Runs
import OpenbsdKernel.Kern.Unp.Basic
import OpenbsdKernel.Kern.Unp.Mark
import OpenbsdKernel.Kern.Unp.Collect
import OpenbsdKernel.Kern.Descrip.Alloc
import OpenbsdKernel.Kern.Descrip.Reads
import OpenbsdKernel.Kern.Descrip.Count
import OpenbsdKernel.Kern.Tty.Ndqb
import OpenbsdKernel.Kern.Sem.Tried
import OpenbsdKernel.Net.Bpf.Chain
import OpenbsdKernel.Kern.Extent.Descriptors
import OpenbsdKernel.Lib.Allotment
import OpenbsdKernel.Net.Art.Basic
import OpenbsdKernel.Net.Art.Allot
import OpenbsdKernel.Net.Art.Place
import OpenbsdKernel.Net.Art.Routes
import OpenbsdKernel.Net.Art.Grow
import OpenbsdKernel.Net.Art.Runs
import OpenbsdKernel.Net.Art.Refcount
import OpenbsdKernel.Net.Art.Walk
import OpenbsdKernel.Net.Art.Match
import OpenbsdKernel.Net.Rtable.Basic
import OpenbsdKernel.Net.Rtable.Insert
import OpenbsdKernel.Net.Rtable.Runs
import OpenbsdKernel.Crypto.KeyWrap
import OpenbsdKernel.Kern.Clock
import OpenbsdKernel.Kern.Pipe.Atomic
import OpenbsdKernel.Kern.Sem.Values
import OpenbsdKernel.Kern.Mbuf.Basic
import OpenbsdKernel.Kern.Mbuf.Memory
import OpenbsdKernel.Kern.Mbuf.Copy
import OpenbsdKernel.Kern.Mbuf.CopyChain
import OpenbsdKernel.Kern.Mbuf.Copym
import OpenbsdKernel.Kern.Mbuf.Split
import OpenbsdKernel.Kern.Mbuf.Inject
import OpenbsdKernel.Kern.Mbuf.Copydata
import OpenbsdKernel.Kern.Mbuf.Copyback
import OpenbsdKernel.Net.Pf.Threshold
import OpenbsdKernel.Netinet.InCksum
import OpenbsdKernel.Netinet.Tcp.XmitTimer
import OpenbsdKernel.Lib.Traced
import OpenbsdKernel.Net.Slcompress.Core
import OpenbsdKernel.Net.Slcompress.Bounds
import OpenbsdKernel.Net.Pf.FragTree
import OpenbsdKernel.Lib.Overwrite
import OpenbsdKernel.Msdosfs.Fat.Blocks
import OpenbsdKernel.Msdosfs.Fat.Search
import OpenbsdKernel.Msdosfs.Fat.Cache
import OpenbsdKernel.Msdosfs.Fat.Extend
import OpenbsdKernel.Kern.Bufq
import OpenbsdKernel.Ufs.Getlbns
import OpenbsdKernel.Msdosfs.Dostime
import OpenbsdKernel.Msdosfs.Dosname
import OpenbsdKernel.Msdosfs.Winname
import OpenbsdKernel.Msdosfs.Fat.Failing
import OpenbsdKernel.Ufs.InodeMap
import OpenbsdKernel.Net.Hfsc.Class
import OpenbsdKernel.Lib.Ccm
import OpenbsdKernel.Net80211.Ccmp.Basic
import OpenbsdKernel.Kern.Mbuf.Fresh
import OpenbsdKernel.Net80211.Ccmp.Stream
import OpenbsdKernel.Net80211.Ccmp.Walk
import OpenbsdKernel.Net80211.Ccmp.Encrypt
import OpenbsdKernel.Net80211.Ccmp.Decrypt
import OpenbsdKernel.Kern.Tty.Clrbits
import OpenbsdKernel.Lib.LongDivision
import OpenbsdKernel.Libkern.Qdivrem.Basic
import OpenbsdKernel.Net.Art.Recursion
import OpenbsdKernel.Libkern.Qdivrem.Normalize
import OpenbsdKernel.Libkern.Qdivrem.Step
import OpenbsdKernel.Libkern.Qdivrem.Division
import OpenbsdKernel.Uvm.Addr.Basic
import OpenbsdKernel.Uvm.Addr.Fitspace
import OpenbsdKernel.Uvm.Addr.Linsearch
import OpenbsdKernel.Lib.Probe
import OpenbsdKernel.Net.BsdComp.Basic
import OpenbsdKernel.Net.BsdComp.Decompress
import OpenbsdKernel.Net.BsdComp.Dictionary
import OpenbsdKernel.Net.BsdComp.Runs
