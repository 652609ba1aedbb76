import ShairKindle.Lib.Run
import ShairKindle.Lib.Ring
import ShairKindle.Lib.Bytes
import ShairKindle.Lib.Sextets
import ShairKindle.Lib.Words
import ShairKindle.Lib.Utf8
import ShairKindle.Lib.Checked
import ShairKindle.Lib.Dns
import ShairKindle.Lib.Chunks
import ShairKindle.Lib.Crash
import ShairKindle.Lib.FileTree
import ShairKindle.Lib.Links
import ShairKindle.Lib.Subtree
import ShairKindle.Lib.Relate
import ShairKindle.Lib.Region
import ShairKindle.Jitter.Seqext
import ShairKindle.Jitter.Extend
import ShairKindle.Jitter.Basic
import ShairKindle.Jitter.Steps
import ShairKindle.Jitter.Play
import ShairKindle.Session.Basic
import ShairKindle.Session.Balance
import ShairKindle.Session.Resync
import ShairKindle.Session.Stale
import ShairKindle.Session.Epoch
import ShairKindle.Session.Resend
import ShairKindle.Session.Conceal
import ShairKindle.Session.StartFill
import ShairKindle.Session.Clock
import ShairKindle.Session.Sink
import ShairKindle.Rtsp.Msg
import ShairKindle.Rtsp.ContentLength
import ShairKindle.Rtsp.Slices
import ShairKindle.Rtsp.Sdp
import ShairKindle.Rtsp.Base64
import ShairKindle.Rtsp.Uints
import ShairKindle.Rtsp.Announce
import ShairKindle.Rtsp.Session
import ShairKindle.Rtsp.Machine
import ShairKindle.Dacp.State
import ShairKindle.Dacp.Commands
import ShairKindle.Dacp.Request
import ShairKindle.Dacp.Resolve
import ShairKindle.Dacp.Encode
import ShairKindle.Dacp.Answer
import ShairKindle.Dacp.Bounds
import ShairKindle.Server.Capture
import ShairKindle.Server.Daap
import ShairKindle.Server.ArtFile
import ShairKindle.Server.Basic
import ShairKindle.Server.Drain
import ShairKindle.Server.Framer
import ShairKindle.Server.Framing
import ShairKindle.Server.Ownership
import ShairKindle.Server.Remote
import ShairKindle.Server.Steering
import ShairKindle.Server.NowPlaying
import ShairKindle.Installer.Manifest
import ShairKindle.Installer.Basic
import ShairKindle.Installer.Steps
import ShairKindle.Installer.Walks
import ShairKindle.Installer.Completes
import ShairKindle.Installer.Stamp
import ShairKindle.Render.Worker
import ShairKindle.Lease.Basic
import ShairKindle.Lease.Notify
import ShairKindle.Lease.Order
import ShairKindle.Lease.Encoder
import ShairKindle.Shell.Basic
import ShairKindle.Shell.Interlock
import ShairKindle.Shell.Leases
import ShairKindle.Shell.Router
import ShairKindle.Session.Restart
import ShairKindle.Name.Sanitize
import ShairKindle.Supervisor.Lines
import ShairKindle.Supervisor.Tokens
import ShairKindle.Supervisor.Lease
import ShairKindle.Installer.Local
import ShairKindle.Installer.Installable
import ShairKindle.Installer.Exact
import ShairKindle.Installer.Inside
import ShairKindle.Installer.Escape
import ShairKindle.Session.Rtp
import ShairKindle.Session.Receiver
import ShairKindle.Session.Received
import ShairKindle.Session.Timing
import ShairKindle.Session.Retransmit
import ShairKindle.Lib.Cbc
import ShairKindle.Session.Decode
import ShairKindle.Supervisor.Main
import ShairKindle.Dacp.Control
