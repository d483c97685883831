import ZenohProxy.Basic
import ZenohProxy.Codec.Calls
import ZenohProxy.Codec.CborDump
import ZenohProxy.Codec.Complete
import ZenohProxy.Codec.Deserializer
import ZenohProxy.Codec.DumpComposition
import ZenohProxy.Codec.DumpReturns
import ZenohProxy.Codec.DumpText
import ZenohProxy.Codec.Messages
import ZenohProxy.Codec.MsgFilter
import ZenohProxy.Codec.RoundTrip
import ZenohProxy.Codec.Serializer
import ZenohProxy.Codec.StringDecode
import ZenohProxy.Codec.TextFields
import ZenohProxy.Codec.TinyCbor
import ZenohProxy.Lib.BrokenLines
import ZenohProxy.Lib.Cbor.Ahead
import ZenohProxy.Lib.Cbor.Cursor
import ZenohProxy.Lib.Cbor.Item
import ZenohProxy.Lib.Cbor.Scalars
import ZenohProxy.Lib.Cbor.Wire
import ZenohProxy.Lib.Crc
import ZenohProxy.Lib.CrcBits
import ZenohProxy.Lib.Ledger
import ZenohProxy.Lib.Mealy
import ZenohProxy.Lib.Numeral
import ZenohProxy.Lib.PubSub
import ZenohProxy.Lib.Replay
import ZenohProxy.Lib.Segments
import ZenohProxy.Lib.Simulation
import ZenohProxy.Lib.Stuffing
import ZenohProxy.Lib.Transfers
import ZenohProxy.Micro.Broker
import ZenohProxy.Micro.BrokerSerial
import ZenohProxy.Micro.Endurance
import ZenohProxy.Micro.LinkTimer
import ZenohProxy.Micro.Report
import ZenohProxy.Micro.SubscriberValue
import ZenohProxy.Pico.Gateway
import ZenohProxy.Pico.Listeners
import ZenohProxy.Pico.Tcp
import ZenohProxy.Pico.Watcher
import ZenohProxy.Pico.ZenohSession
import ZenohProxy.Ppp.Acceptance
import ZenohProxy.Ppp.BrokenFrames
import ZenohProxy.Ppp.Conservation
import ZenohProxy.Ppp.ErrorDetection
import ZenohProxy.Ppp.Extractor
import ZenohProxy.Ppp.Fcs
import ZenohProxy.Ppp.Frame
import ZenohProxy.Ppp.FrameTimeout
import ZenohProxy.Ppp.LateFrames
import ZenohProxy.Ppp.Link
import ZenohProxy.Ppp.Transport
import ZenohProxy.Proxy.BrokerZenoh
import ZenohProxy.Proxy.Declarations
import ZenohProxy.Proxy.Endurance
import ZenohProxy.Proxy.Handlers
import ZenohProxy.Proxy.LinkLoss
import ZenohProxy.Proxy.ReaderContract
import ZenohProxy.Proxy.Refusals
import ZenohProxy.Proxy.Registrations
import ZenohProxy.Proxy.Replay
import ZenohProxy.Proxy.Samples
import ZenohProxy.Proxy.Session
import ZenohProxy.Serial.Frames
import ZenohProxy.Serial.Port
import ZenohProxy.Serial.Resume
import ZenohProxy.Serial.Send
import ZenohProxy.Serial.Session
import ZenohProxy.System.Delivery
import ZenohProxy.System.Handshake
import ZenohProxy.System.LateSample
import ZenohProxy.System.Loopback
import ZenohProxy.System.Recovery
import ZenohProxy.System.Relay
import ZenohProxy.System.Routing
import ZenohProxy.System.Samples
import ZenohProxy.System.Service
import ZenohProxy.System.Start
import ZenohProxy.Tunnel.Client
import ZenohProxy.Tunnel.Dispatch
import ZenohProxy.Tunnel.Send
import ZenohProxy.Tunnel.Stream
