import BSDLite2.Lib.Loop
import BSDLite2.Net.BpfFilter
import BSDLite2.Net.BpfMbuf
import BSDLite2.Kern.SockBufRun
import BSDLite2.Netinet.IpHeader
import BSDLite2.Netinet.IpOptcopy
import BSDLite2.Netinet.IcmpReflect
import BSDLite2.Net.RadixChain
import BSDLite2.Net.SlRoundtrip
import BSDLite2.Netinet.TcpClose
import BSDLite2.Netinet.TcpOffer
import BSDLite2.Netinet.TcpPredict
import BSDLite2.Netinet.TcpAgain
import BSDLite2.Netinet.TcpRto
import BSDLite2.Netinet.TcpOptions
import BSDLite2.Libkern.Muldi3
import BSDLite2.Libkern.QdivremEq
import BSDLite2.Kern.SbLock
import BSDLite2.Kern.LockMgrWake
import BSDLite2.Ufs.LockfRun
import BSDLite2.Kern.MallocRun
import BSDLite2.Kern.CalloutRun
import BSDLite2.Kern.FdAlloc
import BSDLite2.Kern.UipcSend
import BSDLite2.Kern.UnpGc
import BSDLite2.Kern.UpdatePri
import BSDLite2.Ffs.CgCache
import BSDLite2.Ffs.MapSearch
import BSDLite2.Ffs.Truncate
import BSDLite2.Kern.MbufRefine
import BSDLite2.Netinet.IcmpError
import BSDLite2.Netinet.InPcb
import BSDLite2.Vm.MapProtect
