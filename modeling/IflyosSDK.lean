import IflyosSDK.Runs
import IflyosSDK.Simulation
import IflyosSDK.ThreadPool
import IflyosSDK.WorkerPool
import IflyosSDK.PoolOwner
import IflyosSDK.Umbrella
import IflyosSDK.UmbrellaSession
import IflyosSDK.UmbrellaCommands
import IflyosSDK.CString
import IflyosSDK.Interface
import IflyosSDK.RoundTrip
import IflyosSDK.SetTable
import IflyosSDK.Registration
import IflyosSDK.Bus
import IflyosSDK.UmbrellaBus
import IflyosSDK.Endpoint
import IflyosSDK.AppLives
import IflyosSDK.PubSub
import IflyosSDK.Net
import IflyosSDK.NetRegistered
import IflyosSDK.UmbrellaMain
import IflyosSDK.Mailboxes
import IflyosSDK.NetworkMonitor
import IflyosSDK.Memory
import IflyosSDK.Jnh
import IflyosSDK.JnhSteps
import IflyosSDK.JnhSafety
import IflyosSDK.HttpReply
import IflyosSDK.JnhBody
import IflyosSDK.JnhHead
import IflyosSDK.MicAgent
import IflyosSDK.MicAgentCapture
import IflyosSDK.MicAgentMain
import IflyosSDK.Recorder
import IflyosSDK.MicAgentMute
import IflyosSDK.MicAgentThinking
import IflyosSDK.MicAgentWrite
import IflyosSDK.ReadAudio
import IflyosSDK.OrgAudio
import IflyosSDK.RecorderStop
import IflyosSDK.PcmPlayer
import IflyosSDK.PcmStream
import IflyosSDK.Syskey
import IflyosSDK.Lines
import IflyosSDK.MicAgentHandlers
import IflyosSDK.MainPipes
import IflyosSDK.Congestion
import IflyosSDK.MicAgentReports
import IflyosSDK.AuthCode
import IflyosSDK.AuthTip
import IflyosSDK.MicAgentReady
import IflyosSDK.Lifecycle
import IflyosSDK.Dispatch
import IflyosSDK.ReceiverAddress
import IflyosSDK.PcmCache
import IflyosSDK.PcmReplay
import IflyosSDK.Debounce
import IflyosSDK.AppControl
import IflyosSDK.JnhFull
import IflyosSDK.JnhDeadlines
import IflyosSDK.SetTime
import IflyosSDK.AudioBuffers
import IflyosSDK.LinePayloads
import IflyosSDK.JnhFill
import IflyosSDK.ReadFaults
import IflyosSDK.Ledger
import IflyosSDK.PcmContainer
import IflyosSDK.AlsaSession
import IflyosSDK.PcmClose
