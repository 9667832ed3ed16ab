import ChrysaLisp.Fs.Cache
import ChrysaLisp.Storage.Told
import ChrysaLisp.Storage.Converge
import ChrysaLisp.Storage.SetAside
import ChrysaLisp.Storage.Tender
import ChrysaLisp.Storage.Most
import ChrysaLisp.Storage.Plan
import ChrysaLisp.Storage.Sweep
import ChrysaLisp.Storage.Vector
import ChrysaLisp.Storage.Since
import ChrysaLisp.Storage.Read
import ChrysaLisp.Lock.Ownership
import ChrysaLisp.Sync.Put
import ChrysaLisp.Hash.Walk
import ChrysaLisp.Text.History
import ChrysaLisp.Streams.RoundTrip
import ChrysaLisp.Streams.Lz4Wrap
import ChrysaLisp.Streams.Lz4Safe
import ChrysaLisp.Streams.Patch
import ChrysaLisp.Route.Loops
import ChrysaLisp.Route.Shortest
import ChrysaLisp.Math.BignumExact
import ChrysaLisp.Net.Shown
import ChrysaLisp.Task.Once
import ChrysaLisp.Mail.Whole
import ChrysaLisp.Mail.Wire
import ChrysaLisp.Mail.StreamAhead
import ChrysaLisp.Link.Delivered
import ChrysaLisp.Collections.Sets
import ChrysaLisp.Gui.RegionForms
import ChrysaLisp.Net.Door
import ChrysaLisp.Net.Mesh
import ChrysaLisp.Sys.HeapCollect
import ChrysaLisp.Lisp.FormPaired
import ChrysaLisp.Lisp.NearestRun
import ChrysaLisp.Asm.AssignDone
import ChrysaLisp.Trans.Constants
import ChrysaLisp.Trans.Arm64Exact
import ChrysaLisp.Lisp.ReaderCuts
import ChrysaLisp.Crypto.EcdsaGroup
import ChrysaLisp.Crypto.Ed25519Exact
import ChrysaLisp.Date.Calendar
import ChrysaLisp.Crypto.Aead
import ChrysaLisp.Text.Search
import ChrysaLisp.Math.PolygonRings
import ChrysaLisp.Lisp.FixedText
import ChrysaLisp.Trans.Vp64Exact
import ChrysaLisp.Lock.Order
import ChrysaLisp.Streams.HuffmanComplete
import ChrysaLisp.Collections.ArraySort
import ChrysaLisp.Storage.Holders
import ChrysaLisp.Storage.PinnedMeet
import ChrysaLisp.Storage.Snapshot
import ChrysaLisp.Gpu.ShaderPack
import ChrysaLisp.Streams.RleRound
import ChrysaLisp.Streams.HuffmanStream
import ChrysaLisp.Text.RegexpEnds
import ChrysaLisp.Text.Replace
