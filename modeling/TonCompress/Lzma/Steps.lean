import TonCompress.Lzma.Transmit

/-! Any sequence of coding steps under any probability cells: what the range
encoder writes for it, the range decoder reads back step by step. -/
namespace TonCompress.Lzma
open TonCompress.Lib

/-- One call into the coder, that is one round of normalisation. -/
inductive CoderCall (κ : Type) where
  | modelled (cell : κ) (bit : Bool)
  | fixed (bit : Bool)
  deriving DecidableEq, Repr

inductive CodingStep (κ : Type) where
  | adaptive (cell : κ) (bit : Bool)
  | intByFixedProb (val bitCount : Nat)
  deriving DecidableEq, Repr

/-- What the decoder knows of a step beforehand. -/
inductive Request (κ : Type) where
  | adaptive (cell : κ)
  | intByFixedProb (bitCount : Nat)
  deriving DecidableEq, Repr

namespace CodingStep
variable {κ : Type}

def request : CodingStep κ → Request κ
  | .adaptive cell _ => .adaptive cell
  | .intByFixedProb _ bitCount => .intByFixedProb bitCount

def value : CodingStep κ → Nat
  | .adaptive _ bit => bit.toNat
  | .intByFixedProb val bitCount => val % 2 ^ bitCount

def fixedCalls (val : Nat) : Nat → List (CoderCall κ)
  | 0 => []
  | bitCount + 1 => .fixed (val.testBit bitCount) :: fixedCalls val bitCount

def calls : CodingStep κ → List (CoderCall κ)
  | .adaptive cell bit => [.modelled cell bit]
  | .intByFixedProb val bitCount => fixedCalls val bitCount

end CodingStep

namespace CoderCall
variable {κ : Type}

def bit : CoderCall κ → Bool
  | .modelled _ bit => bit
  | .fixed bit => bit

def cell : CoderCall κ → Option κ
  | .modelled cell _ => some cell
  | .fixed _ => none

end CoderCall

section coders
variable {κ : Type} [DecidableEq κ]

def Encoder.intByFixedProb (val : Nat) : Nat → Encoder κ → Encoder κ
  | 0, e => e
  | bitCount + 1, e => intByFixedProb val bitCount (e.fixedBit (val.testBit bitCount))

def Decoder.intByFixedProbLoop : Nat → Nat → Decoder κ → Nat × Decoder κ
  | 0, val, d => (val, d)
  | bitCount + 1, val, d =>
      let (b, d) := d.fixedBit
      intByFixedProbLoop bitCount ((val <<< 1) ||| b.toNat) d

def CodingStep.encode : CodingStep κ → Encoder κ → Encoder κ
  | .adaptive cell bit, e => e.bit cell bit
  | .intByFixedProb val bitCount, e => e.intByFixedProb val bitCount

def Request.decode : Request κ → Decoder κ → Nat × Decoder κ
  | .adaptive cell, d =>
      let (bit, d) := d.bit cell
      (bit.toNat, d)
  | .intByFixedProb bitCount, d => d.intByFixedProbLoop bitCount 0

def CoderCall.encode : CoderCall κ → Encoder κ → Encoder κ
  | .modelled cell bit, e => e.bit cell bit
  | .fixed bit, e => e.fixedBit bit

def decodeCall : Option κ → Decoder κ → Bool × Decoder κ
  | some cell, d => d.bit cell
  | none, d => d.fixedBit

/-- What `newRangeEncoder`, the steps and `rangeEncodeTerminate` leave. -/
def encodeSteps (steps : List (CodingStep κ)) (dstLen : Nat) : RangeEncoder :=
  rangeEncodeTerminate (sendAll CodingStep.encode steps (.fresh dstLen)).coder

end coders

/-- The coders of the compressor run the same loops. -/
theorem rangeEncodeIntByFixedProb_eq (val bitCount : Nat) (e : Encoder ProbCell) :
    rangeEncodeIntByFixedProb val bitCount e = .ok ((), e.intByFixedProb val bitCount) := by
  induction bitCount generalizing e with
  | zero => rfl
  | succ bitCount ih => exact ih _

theorem rangeDecodeIntByFixedProbLoop_eq (bitCount val : Nat) (d : Decoder ProbCell) :
    rangeDecodeIntByFixedProbLoop bitCount val d = .ok (d.intByFixedProbLoop bitCount val) := by
  induction bitCount generalizing d val with
  | zero => rfl
  | succ bitCount ih => exact ih _ _

section carries
variable {κ : Type} [DecidableEq κ] {dstLen : Nat}

theorem CoderCall.carries (call : CoderCall κ) :
    Carries (rangeChannel κ dstLen) call.encode (decodeCall call.cell) call.bit := by
  intro e he
  cases call with
  | modelled cell bit => exact Encoder.bit_step he cell bit
  | fixed bit => exact Encoder.fixedBit_step he bit

theorem Encoder.intByFixedProb_carries (val bitCount high : Nat) :
    Carries (rangeChannel κ dstLen) (Encoder.intByFixedProb val bitCount)
      (Decoder.intByFixedProbLoop bitCount high) (high * 2 ^ bitCount + val % 2 ^ bitCount) := by
  induction bitCount generalizing high with
  | zero =>
    have hvalue : high * 2 ^ 0 + val % 2 ^ 0 = high := by
      rw [pow_zero, Nat.mul_one, Nat.mod_one, Nat.add_zero]
    rw [hvalue]
    exact .refl high
  | succ bitCount ih =>
    have hvalue : high * 2 ^ (bitCount + 1) + val % 2 ^ (bitCount + 1) =
        ((high <<< 1) ||| (val.testBit bitCount).toNat) * 2 ^ bitCount + val % 2 ^ bitCount := by
      rw [shiftLeft_or_bit, mod_two_pow_succ, pow_succ]
      ring
    have hfirst := @CoderCall.carries κ _ dstLen (.fixed (val.testBit bitCount))
    rw [hvalue]
    exact @Carries.comp _ _ _ Bool Nat (rangeChannel κ dstLen) _ (Encoder.intByFixedProb val bitCount)
      (decodeCall none)
      (fun b d => Decoder.intByFixedProbLoop bitCount ((high <<< 1) ||| b.toNat) d) _ _ hfirst (ih _)

theorem CodingStep.carries (step : CodingStep κ) :
    Carries (rangeChannel κ dstLen) step.encode step.request.decode step.value := by
  cases step with
  | adaptive cell bit =>
    have hcall := @CoderCall.carries κ _ dstLen (.modelled cell bit)
    exact hcall.map Bool.toNat
  | intByFixedProb val bitCount =>
    have hloop := @Encoder.intByFixedProb_carries κ _ dstLen val bitCount 0
    rwa [Nat.zero_mul, Nat.zero_add] at hloop

theorem fixedCalls_encode (val bitCount : Nat) (e : Encoder κ) :
    sendAll CoderCall.encode (CodingStep.fixedCalls val bitCount) e =
      e.intByFixedProb val bitCount := by
  induction bitCount generalizing e with
  | zero => rfl
  | succ bitCount ih => exact ih _

theorem sendAll_calls (steps : List (CodingStep κ)) (e : Encoder κ) :
    sendAll CoderCall.encode (steps.flatMap CodingStep.calls) e =
      sendAll CodingStep.encode steps e := by
  induction steps generalizing e with
  | nil => rfl
  | cons step rest ih =>
    have hstep : sendAll CoderCall.encode step.calls e = step.encode e := by
      cases step with
      | adaptive cell bit => rfl
      | intByFixedProb val bitCount => exact fixedCalls_encode val bitCount e
    rw [List.flatMap_cons, sendAll_append, hstep]
    exact ih _

end carries

section carry
variable {κ : Type} [DecidableEq κ] {dstLen : Nat} {e : Encoder κ}

theorem CoderCall.encode_narrow (h : (rangeChannel κ dstLen).Sound e) (call : CoderCall κ) :
    ∃ offset size, offset + size ≤ (rangeEncodeNormalize e.coder).range ∧ 2 ^ 16 ≤ size ∧
      (call.encode e).coder = (rangeEncodeNormalize e.coder).narrow offset size := by
  obtain ⟨hsound, -, hprobs⟩ := h
  obtain ⟨-, hge, -, -⟩ := hsound.normalize
  cases call with
  | modelled cell bit =>
    obtain ⟨hfits, hsize⟩ := rangeEncodeBit_fits hge (hprobs cell) bit
    exact ⟨_, _, hfits, hsize, rangeEncodeBit_narrow hsound (e.probs cell) bit⟩
  | fixed bit =>
    obtain ⟨hfits, hsize⟩ := rangeEncodeFixedBit_fits hge bit
    exact ⟨_, _, hfits, hsize, rangeEncodeFixedBit_narrow hsound bit⟩

structure CallSound (e : Encoder κ) (out : List UInt8) : Prop where
  prob_ge : ∀ cell, 31 ≤ e.probs cell
  prob_le : ∀ cell, e.probs cell ≤ 2017
  /-- One shift is enough. -/
  range_ge : 2 ^ 24 ≤ (rangeEncodeNormalize e.coder).range
  /-- A carry turns the cached byte and the pending ones over: the number that all
  bytes so far make is kept. -/
  normalized : e.coder.range < rangeCodeNormalizeThreshold →
    (rangeEncodeNormalize e.coder).lowMsb = 0 ∧
      (rangeEncodeNormalize e.coder).count = e.coder.count + 1 ∧
      (rangeEncodeNormalize e.coder).lowValue = 256 * e.coder.lowValue
  /-- The bytes written in the end lie in the interval. -/
  leads : e.coder.Leads out

theorem CallSound.of_sound (h : (rangeChannel κ dstLen).Sound e) (call : CoderCall κ)
    {out : List UInt8} (hout : (rangeChannel κ dstLen).Leads (call.encode e) out) :
    CallSound e out := by
  obtain ⟨offset, size, hfits, hsize, hnarrow⟩ := call.encode_narrow h
  obtain ⟨hsound, -, hprobs⟩ := h
  obtain ⟨hnormal, hge, -, hback⟩ := hsound.normalize
  obtain ⟨-, hwide⟩ := hnormal.narrow hfits hsize
  have hleads : (rangeEncodeNormalize e.coder).Leads out := by
    change (call.encode e).coder.Leads out at hout
    rw [hnarrow] at hout
    exact (hwide out hout).1
  refine ⟨fun cell => (hprobs cell).ge, fun cell => (hprobs cell).le, hge, ?_,
    (hback out hleads).1⟩
  intro hrange
  obtain ⟨-, -, -, hmsb, -, -, -, hvalue⟩ := rangeEncodeNormalize_spec hsound.toValid hrange
  obtain ⟨rest, hlength, -, -⟩ := hleads.fits
  have hlt := hleads.length_lt
  obtain ⟨-, hcount, hlow⟩ := hvalue hleads.overflow_eq (by omega)
  exact ⟨hmsb, hcount, hlow⟩

end carry

section run
variable {κ : Type} {dstLen : Nat}

structure InStep (e : Encoder κ) (d : Decoder κ) : Prop where
  probs_eq : d.probs = e.probs
  range_eq : d.coder.range = e.coder.range
  overflow_eq : d.coder.overflow = false

theorem InStep.of_synced {e : Encoder κ} {out : List UInt8} {d : Decoder κ}
    (h : (rangeChannel κ dstLen).Synced e out d) : InStep e d :=
  ⟨h.2, h.1.range_eq, h.1.overflow_eq⟩

theorem Decoder.fresh_synced {out : List UInt8}
    (h : (rangeChannel κ dstLen).Leads (.fresh dstLen) out) :
    (rangeChannel κ dstLen).Synced (.fresh dstLen) out (.fresh out) :=
  ⟨newRangeDecoder_synced h, rfl⟩

variable [DecidableEq κ]

theorem encodeSteps_leads (steps : List (CodingStep κ))
    (hlen : dstLen + 1 < rangeCodeCacheSizeMax)
    (hroom : (encodeSteps steps dstLen).overflow = false) :
    (rangeChannel κ dstLen).Leads (sendAll CodingStep.encode steps (.fresh dstLen))
      (encodeSteps steps dstLen).dst := by
  obtain ⟨⟨hsound, hlength, -⟩, -⟩ :=
    Carries.all (fun step => CodingStep.carries step) steps _ (Encoder.fresh_sound dstLen)
  exact rangeEncodeTerminate_leads hsound (by rw [hlength]; exact hlen) hroom

/-- When there is room for all bytes, the decoder gets the bits of every step and
keeps in step with the encoder, and every call of the encoder is in order. -/
theorem decode_encodeSteps (steps : List (CodingStep κ))
    (hlen : dstLen + 1 < rangeCodeCacheSizeMax)
    (hroom : (encodeSteps steps dstLen).overflow = false) :
    (∀ done rest, steps = done ++ rest →
      ∃ d, receiveAll Request.decode (done.map CodingStep.request)
          (.fresh (encodeSteps steps dstLen).dst) = (done.map CodingStep.value, d) ∧
        InStep (sendAll CodingStep.encode done (.fresh dstLen)) d) ∧
    (∀ done call rest, steps.flatMap CodingStep.calls = done ++ call :: rest →
      CallSound (sendAll CoderCall.encode done (.fresh dstLen)) (encodeSteps steps dstLen).dst ∧
      ∃ d, receiveAll decodeCall (done.map CoderCall.cell)
          (.fresh (encodeSteps steps dstLen).dst) = (done.map CoderCall.bit, d) ∧
        InStep (sendAll CoderCall.encode done (.fresh dstLen)) d) := by
  have hleads := encodeSteps_leads steps hlen hroom
  have hstart := @Encoder.fresh_sound κ dstLen
  generalize (encodeSteps steps dstLen).dst = out at hleads ⊢
  constructor
  · rintro done rest rfl
    obtain ⟨-, -, d, hrun, hsynced⟩ := Carries.split (fun step => CodingStep.carries step) done rest
      hstart hleads Decoder.fresh_synced
    exact ⟨d, hrun, .of_synced hsynced⟩
  · intro done call rest hcalls
    rw [← sendAll_calls, hcalls] at hleads
    obtain ⟨hsound, -, d, hrun, hsynced⟩ := Carries.split (fun call => CoderCall.carries call) done
      (call :: rest) hstart hleads Decoder.fresh_synced
    rw [List.append_cons] at hleads
    obtain ⟨-, hnext, -⟩ := Carries.split (fun call => CoderCall.carries call) (done ++ [call]) rest
      hstart hleads Decoder.fresh_synced
    rw [sendAll_append] at hnext
    exact ⟨.of_sound hsound call hnext, d, hrun, .of_synced hsynced⟩

theorem decode_encodeSteps_three :
    ∃ d, receiveAll Request.decode [.adaptive 0, .intByFixedProb 3, .adaptive 1]
        (.fresh (encodeSteps [.adaptive (0 : Fin 2) true, .intByFixedProb 5 3, .adaptive 1 false]
          16).dst) = ([1, 5, 0], d) ∧
      InStep (sendAll CodingStep.encode
        [.adaptive (0 : Fin 2) true, .intByFixedProb 5 3, .adaptive 1 false] (.fresh 16)) d :=
  (@decode_encodeSteps (Fin 2) 16 _
    [.adaptive (0 : Fin 2) true, .intByFixedProb 5 3, .adaptive 1 false] (by decide)
    (by decide +kernel)).1 [.adaptive 0 true, .intByFixedProb 5 3, .adaptive 1 false] [] rfl

end run

end TonCompress.Lzma
