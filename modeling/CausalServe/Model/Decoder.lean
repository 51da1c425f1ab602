import CausalServe.Model.Attention
import CausalServe.Model.FeedForward
import CausalServe.Model.Norm

/-! A layer of the decoder: attention, then the feed-forward network, each behind a norm, and each
added to what it was computed from. -/

namespace CausalServe

structure DecoderLayer where
  inputNorm : RmsNorm
  attention : Attention
  postNorm : RmsNorm
  feedForward : FeedForward

namespace DecoderLayer

def forward (l : DecoderLayer) (c : BatchContext) (hidden : List Float32) :
    Action Cache (List Float32) := do
  let normed ← Action.ofExcept (l.inputNorm.forward hidden)
  let attended ← l.attention.forward c normed
  let hidden := zipOnto (· + ·) hidden attended
  let normed ← Action.ofExcept (l.postNorm.forward hidden)
  let fed ← Action.ofExcept (l.feedForward.forward c.kernels normed c.rows)
  return zipOnto (· + ·) hidden fed

end DecoderLayer

end CausalServe
