import RawSpeed.Spec.Bits
import RawSpeed.Spec.Cache
import RawSpeed.Spec.Streamer
import RawSpeed.Spec.JPEG
import RawSpeed.Spec.MSB16
import RawSpeed.Spec.OrfDecoder
import RawSpeed.Reference.Destuff
import RawSpeed.Reference.Reader
import RawSpeed.Proofs.Simulation
import RawSpeed.Proofs.FillCache
import RawSpeed.Proofs.Reader
import RawSpeed.Proofs.Segment
import RawSpeed.Proofs.MSB16
import RawSpeed.Proofs.Vacuumer
import RawSpeed.Proofs.Rebase
import RawSpeed.Proofs.Orf
