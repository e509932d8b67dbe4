import FalconVanity.Foundation.Positional
import FalconVanity.Foundation.Words
import FalconVanity.Foundation.BlockHash
import FalconVanity.Text
import FalconVanity.Mnemonic
import FalconVanity.Matcher
import FalconVanity.Sampler
import FalconVanity.Keygen
import FalconVanity.CpuSearch
import FalconVanity.KeygenEvaluator
import FalconVanity.Emission
import FalconVanity.HitBuffer
import FalconVanity.SaltSweep
import FalconVanity.EdPubkeys
import FalconVanity.Provenance
import FalconVanity.RoundTrip
import FalconVanity.StaleTargets
import FalconVanity.PossibleTargets
import FalconVanity.TargetParse
import FalconVanity.PubkeyCodec
import FalconVanity.SampleStage
import FalconVanity.RetrySample
import FalconVanity.GaussianWalk
import FalconVanity.HexInput
import FalconVanity.Tpm
import FalconVanity.TpmMix
import FalconVanity.BnormFilter
import FalconVanity.Sign
import FalconVanity.SignatureFormats
import FalconVanity.SignedVerifies
import FalconVanity.FieldBytes
import FalconVanity.SeedHash
