import Zyris.Terminal.Equiv.Cut
import Zyris.Terminal.Equiv.More
import Zyris.Terminal.Equiv.Poll
import Zyris.Terminal.Equiv.Stream
import Zyris.Terminal.Equiv.Opening
import Zyris.Core.Equiv.Link
import Zyris.Core.Equiv.Redial
import Zyris.Core.Equiv.Served
import Zyris.Core.Equiv.Inflight
import Zyris.Core.Equiv.Gate
import Zyris.Core.Equiv.Handshake
import Zyris.Core.Equiv.CloseReason
import Zyris.Core.Equiv.Collect
import Zyris.Core.Equiv.Loss
import Zyris.Core.Equiv.Abandon
import Zyris.Core.Equiv.Routing
import Zyris.Core.Equiv.Ending
import Zyris.Core.Equiv.Rpc
import Zyris.Core.Equiv.Limits
import Zyris.Caps.Equiv.Path
import Zyris.Core.Equiv.Attachment
import Zyris.Proto.Equiv.Detach
import Zyris.Proto.Equiv.Blob
import Zyris.Proto.Equiv.JsonValue
import Zyris.Transfer.Equiv.Apart
import Zyris.Transfer.Equiv.Resume
import Zyris.Transfer.Equiv.Budget
import Zyris.Core.Equiv.Enroll
import Zyris.P2p.Equiv.Spelling
import Zyris.P2p.Equiv.Frame
import Zyris.P2p.Equiv.LockFile
import Zyris.P2p.Equiv.Key
import Zyris.Transfer.Equiv.Trust
import Zyris.Transfer.Equiv.Part
import Zyris.Transfer.Equiv.Send
import Zyris.Transfer.Equiv.Pull
import Zyris.Transfer.Equiv.Listen
import Zyris.Transfer.Equiv.Undo
import Zyris.Input.Equiv.Chord
import Zyris.Input.Equiv.EnigoInput
