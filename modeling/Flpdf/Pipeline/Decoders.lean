import Flpdf.Lzw.Refinement
import Flpdf.Pipeline.Ascii85
import Flpdf.Pipeline.AsciiHex
import Flpdf.Pipeline.PngFilter
import Flpdf.Pipeline.RunLength
import Flpdf.Pipeline.TiffPredictor

/-! # Decoders that are fed in pieces

What a decoder delivers is a function of the input alone: the pieces in which it
comes do not count.
-/

namespace Flpdf

/-- However the input is split, each decoder delivers what its filter says, and what stands
behind an end marker has no effect. -/
theorem decoders_ignore_splits :
    (∀ chunks, Ascii85Decoder.decode chunks = Ascii85Decoder.reference chunks.flatten) ∧
      (∀ chunks, AsciiHexDecoder.decode chunks = AsciiHexDecoder.reference chunks.flatten) ∧
      (∀ chunks, RunLength.decode chunks = .ok (RunLength.reference chunks.flatten)) ∧
      (∀ chunks later before behind,
        chunks.flatten.filter (fun byte => !isQpdfSpace byte) =
            before ++ 0x7e :: 0x3e :: behind →
          Ascii85Decoder.decode (chunks ++ later) = Ascii85Decoder.decode chunks) ∧
      ∀ chunks later, 0x3e ∈ chunks.flatten →
        AsciiHexDecoder.decode (chunks ++ later) = AsciiHexDecoder.decode chunks := by
  refine ⟨Ascii85Decoder.decode_eq, AsciiHexDecoder.decode_eq, RunLength.decode_eq, ?_, ?_⟩
  · intro chunks later before behind hend
    rw [Ascii85Decoder.decode_eq, Ascii85Decoder.decode_eq, List.flatten_append,
      Ascii85Decoder.reference_append hend]
  · intro chunks later hend
    rw [AsciiHexDecoder.decode_eq, AsciiHexDecoder.decode_eq, List.flatten_append,
      AsciiHexDecoder.reference_append hend]

/-! ## The decoders as stages -/

/-- The errors of the stages. -/
inductive DecodeError where
  | pipeline (error : PipelineError)
  | lzw (error : Lzw.LzwError)
  | tiff (error : TiffPredictorError)
  deriving DecidableEq, Repr

def StageFailure.located (failure : StageFailure) : Bytes × DecodeError :=
  (failure.out, .pipeline failure.error)

namespace Ascii85Decoder

abbrev machine : StageMachine DecodeError :=
  .keeping {} (fun d data => (d.write data).mapError StageFailure.located) (fun d => .ok d.finish)
    Ascii85Decoder.out

end Ascii85Decoder

namespace AsciiHexDecoder

abbrev machine : StageMachine DecodeError :=
  .keeping {} (fun d data => (d.write data).mapError StageFailure.located) (fun d => .ok d.finish)
    AsciiHexDecoder.out

end AsciiHexDecoder

namespace RunLength

abbrev machine : StageMachine DecodeError :=
  .keeping {} (fun r data => (r.write data).mapError StageFailure.located) (fun r => .ok r)
    RunLength.out

end RunLength

namespace Lzw.LzwDecoder

/-- What has been delivered, as one text. -/
def delivered (d : LzwDecoder) : Bytes := d.written.flatten

def located (failure : List Bytes × LzwError) : Bytes × DecodeError :=
  (failure.1.flatten, .lzw failure.2)

abbrev machine (early : Bool) : StageMachine DecodeError :=
  .keeping (new early) (fun d data => (d.write data).mapError located) (fun d => .ok d) delivered

end Lzw.LzwDecoder

namespace PngFilter

abbrev machine (f : PngFilter) : StageMachine DecodeError :=
  .keeping f (fun f data => .ok (f.write data)) (fun f => .ok f.finish) PngFilter.out

end PngFilter

namespace TiffPredictor

/-- A failing call is taken to deliver nothing before it fails. -/
abbrev machine (p : TiffPredictor) : StageMachine DecodeError :=
  .keeping p (fun p data => (p.write data).mapError fun error => (p.out, .tiff error))
    (fun p => p.finish.mapError fun error => (p.out, .tiff error)) TiffPredictor.out

end TiffPredictor

end Flpdf
