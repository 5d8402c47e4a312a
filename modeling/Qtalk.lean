import Qtalk.Codec.Fragment
import Qtalk.Js.ChannelTable
import Qtalk.Js.Conversation
import Qtalk.Js.Dispatch
import Qtalk.Js.EndOfStream
import Qtalk.Js.Flow
import Qtalk.Js.FrameWrites
import Qtalk.Js.Handshake
import Qtalk.Js.Hijack
import Qtalk.Js.Rendezvous
import Qtalk.Js.ValueFrames
import Qtalk.Js.Websocket
import Qtalk.Legacy.ChannelTable
import Qtalk.Legacy.Export
import Qtalk.Mux.ChanMap
import Qtalk.Mux.Decided
import Qtalk.Mux.Draining
import Qtalk.Mux.Elements
import Qtalk.Mux.Readers
import Qtalk.Mux.WriteWindow
import Qtalk.System.Standstill
import Qtalk.Rpc.Heard
import Qtalk.Rpc.Blocked
import Qtalk.Rpc.Standing
import Qtalk.Rpc.Rest
import Qtalk.Rpc.Export
import Qtalk.Rpc.MapOrder
import Qtalk.Rpc.Objects
import Qtalk.Rpc.Server
import Qtalk.System.Confirm
import Qtalk.System.Credit
import Qtalk.System.Truncation
import Qtalk.System.Deadlock
