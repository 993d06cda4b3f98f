import TypegoSdk.Lib.Bytes
import TypegoSdk.Lib.Crc
import TypegoSdk.Lib.Exec
import TypegoSdk.Lib.Fragment
import TypegoSdk.Lib.While
import TypegoSdk.Lib.Path
import TypegoSdk.Livox.Packet
import TypegoSdk.Livox.FullService
import TypegoSdk.Livox.FullStream
import TypegoSdk.Livox.FilteredService
import TypegoSdk.Livox.Decode
import TypegoSdk.Livox.InternalInfo
import TypegoSdk.Dds.BlockQueue
import TypegoSdk.Dds.QueueHistory
import TypegoSdk.Dds.Listener
import TypegoSdk.Dds.QueueWaiters
import TypegoSdk.Dds.LostConnection
import TypegoSdk.Dds.Crc32
import TypegoSdk.Lib.Mailbox
import TypegoSdk.Publisher.RealTime
import TypegoSdk.Publisher.Contents
import TypegoSdk.Publisher.Delivery
import TypegoSdk.Control.Pid
import TypegoSdk.Control.Motion
import TypegoSdk.Control.Ahead
import TypegoSdk.Control.Watch
import TypegoSdk.Control.Rounds
import TypegoSdk.Control.Stop
import TypegoSdk.Control.Cancel
import TypegoSdk.Control.Turn
import TypegoSdk.Control.Drive
import TypegoSdk.Control.LastMove
import TypegoSdk.Remote.Keys
import TypegoSdk.StateMachine.Controller
import TypegoSdk.StateMachine.SoftStart
import TypegoSdk.StateMachine.Command
import TypegoSdk.Dds.EasyModel
import TypegoSdk.Remote.Joystick
import TypegoSdk.Json.Jsonize
import TypegoSdk.Lib.Union
import TypegoSdk.Json.Merge
import TypegoSdk.Audio.PlayWav
import TypegoSdk.Audio.Upload
import TypegoSdk.Audio.UploadPath
import TypegoSdk.Audio.Playback
import TypegoSdk.Audio.Riff
import TypegoSdk.Audio.Alone
import TypegoSdk.Lib.Orbit
import TypegoSdk.Lib.Stream
import TypegoSdk.Wav.ReadWave
import TypegoSdk.Wav.Header
import TypegoSdk.Wav.RoundTrip
import TypegoSdk.Wav.Chunks
import TypegoSdk.Wav.Padding
import TypegoSdk.Dds.CrcSpec
import TypegoSdk.Dds.Crc16
import TypegoSdk.Dds.Subscription
import TypegoSdk.H1.AnkleTrack
import TypegoSdk.Remote.AxisEdges
import TypegoSdk.Remote.Frame
import TypegoSdk.Loco.Getters
import TypegoSdk.Loco.ShakeHand
import TypegoSdk.Control.Fresh
import TypegoSdk.Dds.WaitReader
import TypegoSdk.Common.AnyNumber
import TypegoSdk.StateMachine.Tilt
import TypegoSdk.Lib.Raster
import TypegoSdk.Camera.Stream
import TypegoSdk.Camera.Size
import TypegoSdk.Lib.Buffer
import TypegoSdk.Lib.Search
import TypegoSdk.Crow.Text
import TypegoSdk.Crow.Number
import TypegoSdk.Crow.Decode
import TypegoSdk.Crow.Phrase
import TypegoSdk.Crow.Parse
import TypegoSdk.Crow.Accept
import TypegoSdk.Crow.Document
import TypegoSdk.Crow.Cells
import TypegoSdk.Crow.Access
import TypegoSdk.Lib.Find
import TypegoSdk.Crow.Printed
import TypegoSdk.Crow.Writer
import TypegoSdk.Crow.Fields
import TypegoSdk.Crow.Multipart
import TypegoSdk.Control.Route
import TypegoSdk.Control.Http
import TypegoSdk.Audio.Form
import TypegoSdk.Udp.Client
import TypegoSdk.Udp.HighState
import TypegoSdk.Lib.Least
import TypegoSdk.Crow.Trie
import TypegoSdk.Crow.Router
import TypegoSdk.Control.Site
import TypegoSdk.Lib.Pipeline
import TypegoSdk.LowLevel.Swing
