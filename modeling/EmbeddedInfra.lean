import EmbeddedInfra.Infra.SequencerRefinement
import EmbeddedInfra.Services.ConfigurationStoreRequests
import EmbeddedInfra.Services.CyclicStore.Copying
import EmbeddedInfra.Services.CyclicStore.RecoverSafety
import EmbeddedInfra.Services.CyclicStore.PowerLoss
import EmbeddedInfra.Infra.TickOnInterruptTimerService
import EmbeddedInfra.Infra.IntrusivePriorityQueueRuns
import EmbeddedInfra.Services.Network.ConnectionFactoryWithNameResolver
import EmbeddedInfra.Services.Network.HttpClientConnector
import EmbeddedInfra.Services.Network.HttpClientBasic
import EmbeddedInfra.Services.Network.HttpServerRuns
import EmbeddedInfra.Services.Network.DnsResolver
import EmbeddedInfra.Services.Network.ConnectionMbedTls
import EmbeddedInfra.Infra.Util.SharedPtrRuns
import EmbeddedInfra.Infra.Event.EventDispatcher
import EmbeddedInfra.Protobuf.EchoUnhandled
import EmbeddedInfra.Protobuf.EchoSend
import EmbeddedInfra.Protobuf.EchoMessageSize
import EmbeddedInfra.Infra.Syntax.JsonStreamingStrings
import EmbeddedInfra.Infra.Syntax.JsonIntegers
import EmbeddedInfra.Infra.Event.ClaimableResource
import EmbeddedInfra.Infra.Syntax.ProtoParserRobustness
import EmbeddedInfra.Services.Util.Terminal
import EmbeddedInfra.Lwip.SendMemory
import EmbeddedInfra.Services.Network.ConnectionFactoryMbedTls
import EmbeddedInfra.Lwip.ConnectionLifetime
import EmbeddedInfra.Infra.Syntax.JsonEscapedStringSize
import EmbeddedInfra.Infra.Util.CyclicBuffer
import EmbeddedInfra.Infra.Util.BoundedPriorityQueue
import EmbeddedInfra.Infra.Util.IntrusiveListsRuns
import EmbeddedInfra.Infra.Syntax.Asn1Formatter
import EmbeddedInfra.Infra.Event.QueueForOneReaderOneIrqWriterRuns
import EmbeddedInfra.Infra.Stream.DecimalDigits
import EmbeddedInfra.Infra.Stream.LimitedInputStream
import EmbeddedInfra.Infra.Stream.Base64
import EmbeddedInfra.Infra.ScalableTime
import EmbeddedInfra.Infra.PeriodicTimers
import EmbeddedInfra.Services.Network.ConnectionSerialContent
import EmbeddedInfra.Services.Network.DnsReplyParser
import EmbeddedInfra.Services.Network.SntpClient
import EmbeddedInfra.Upgrade.BinaryObject
import EmbeddedInfra.Upgrade.DeployPackToExternal
import EmbeddedInfra.Upgrade.ImageUpgraderInternalFlash
import EmbeddedInfra.Services.Network.MqttFormatter
import EmbeddedInfra.Services.Network.HttpResponses
import EmbeddedInfra.Upgrade.Verifiers
import EmbeddedInfra.Infra.Util.BoundedStringSearching
import EmbeddedInfra.Services.Util.FlashRegion
import EmbeddedInfra.Lwip.UdpReader
import EmbeddedInfra.Services.SynchronousUtil.SynchronousFlash
import EmbeddedInfra.Services.Util.FlashChip
import EmbeddedInfra.Protobuf.EchoConsole
import EmbeddedInfra.Infra.Util.Observer
