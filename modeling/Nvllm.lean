import Nvllm.Compile.CacheKeySound
import Nvllm.Decoder.Paths
import Nvllm.Eplb.Replicate
import Nvllm.KVCache.CapacityRun
import Nvllm.KVCache.EventReplay
import Nvllm.KVCache.HitsSurvive
import Nvllm.KVCache.LongestHit
import Nvllm.KVCache.ResetIdle
import Nvllm.KVCache.SecondFullGroup
import Nvllm.Kernel.AttnIsolation
import Nvllm.Kernel.Fp4Pack
import Nvllm.Kernel.LastCtaRace
import Nvllm.Kernel.ResidentCap
import Nvllm.Multimodal.CacheProgress
import Nvllm.Multimodal.Mirror
import Nvllm.Offload.ArcPolicy
import Nvllm.Offload.Ownership
import Nvllm.Output.Deltas
import Nvllm.Output.Reasoning
import Nvllm.Sched.Context
import Nvllm.Sched.EncoderBalance
import Nvllm.Sched.FcfsOrder
import Nvllm.Sched.LengthCap
import Nvllm.Sched.NoneLost
import Nvllm.Sched.Placeholders
import Nvllm.Sched.PriorityOrder
import Nvllm.Sched.Session
import Nvllm.SpecDecode.Metadata
import Nvllm.SpecDecode.Ngram
import Nvllm.Worker.SlotMapping
