import MochiSyscalls.NetworkStack.DhcpClient
import MochiSyscalls.NetworkStack.DnsLifetime
import MochiSyscalls.NetworkStack.DnsNames
import MochiSyscalls.NetworkStack.DnsSplit
import MochiSyscalls.NetworkStack.TcpAcceptQueue
import MochiSyscalls.NetworkStack.TcpBlindAttack
import MochiSyscalls.NetworkStack.TcpHandles
import MochiSyscalls.NetworkStack.TcpRetransmit
import MochiSyscalls.NetworkStack.TcpWindow
import MochiSyscalls.NetworkStack.TcpWire
import MochiSyscalls.NetworkStack.UdpSocketRuns
import MochiSyscalls.CertificateDatabase.CrashSafety
import MochiSyscalls.CertificateDatabase.FileBackend
import MochiSyscalls.DeveloperCertificate.Authority
import MochiSyscalls.UserDatabase.Groups
import MochiSyscalls.PackageManifest.LinuxPaths
import MochiSyscalls.HttpClient.Framing
import MochiSyscalls.HttpClient.Incremental
import MochiSyscalls.HttpClient.Redirects
import MochiSyscalls.HttpClient.Request
import MochiSyscalls.HttpClient.Streaming
import MochiSyscalls.PosixProtocol.ResourcePolicy
import MochiSyscalls.PosixClient.EntryStack
import MochiSyscalls.PosixClient.FdRuns
import MochiSyscalls.PosixClient.IndirectFixups
import MochiSyscalls.PosixClient.LaunchInheritance
import MochiSyscalls.PosixClient.LifecycleRuns
import MochiSyscalls.PosixClient.MutexExclusion
import MochiSyscalls.PosixClient.MutexHandover
import MochiSyscalls.PosixClient.Pie.LinkOrder
import MochiSyscalls.PosixClient.Pie.SymbolAnswers
import MochiSyscalls.PosixClient.Pie.VersionTables
import MochiSyscalls.PosixClient.StaticTlsAgreement
import MochiSyscalls.PosixClient.TerminalRead
import MochiSyscalls.PosixClient.ThreadLifecycle
