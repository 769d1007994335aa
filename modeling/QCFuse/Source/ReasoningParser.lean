import QCFuse.Library.Search
import QCFuse.Source.FinishCheck

/-!
# Reasoning parser

`BaseReasoningFormatDetector` with its two interfaces, and the detectors that keep them.
-/

set_option autoImplicit false

namespace QCFuse.Source

open QCFuse.Library

/-- White space for `str.strip`. -/
def isSpace (c : Char) : Bool :=
  let n := c.toNat
  (0x09 ≤ n && n ≤ 0x0D) || (0x1C ≤ n && n ≤ 0x20) || n == 0x85 || n == 0xA0 || n == 0x1680 ||
    (0x2000 ≤ n && n ≤ 0x200A) || n == 0x2028 || n == 0x2029 || n == 0x202F || n == 0x205F || n == 0x3000

/-- `text.strip()`. -/
def strip (text : Text) : Text := trim isSpace text

/-- `text.rstrip()`. -/
def rstrip (text : Text) : Text := text.rdropWhile isSpace

/-- `StreamingParseResult`. -/
structure ReasoningResult where
  normalText : Text
  reasoningText : Text
  deriving DecidableEq, Repr

structure BaseReasoningFormatDetector where
  thinkStartToken : Text
  thinkEndToken : Text
  inReasoning : Bool
  streamReasoning : Bool
  buffer : Text
  strippedThinkStart : Bool
  deriving DecidableEq

namespace BaseReasoningFormatDetector

def new (thinkStartToken thinkEndToken : Text) (forceReasoning streamReasoning : Bool) :
    BaseReasoningFormatDetector :=
  ⟨thinkStartToken, thinkEndToken, forceReasoning, streamReasoning, [], false⟩

/-- `detect_and_parse`. -/
def detectAndParse (d : BaseReasoningFormatDetector) (text : Text) : ReasoningResult :=
  let inReasoning := d.inReasoning || decide (d.thinkStartToken <:+: text)
  if !inReasoning then ⟨text, []⟩
  else
    let processedText := strip (removeParts d.thinkStartToken 0 text)
    match findPart d.thinkEndToken processedText with
    -- reasoning that is cut before its end tag
    | none => ⟨[], processedText⟩
    | some endIdx => ⟨strip (processedText.drop (endIdx + d.thinkEndToken.length)), processedText.take endIdx⟩

/-- The text is the beginning of a tag, and not a whole one. -/
def isTagPrefix (d : BaseReasoningFormatDetector) (text : Text) : Bool :=
  [d.thinkStartToken, d.thinkEndToken].any fun token => decide (text <+: token) && decide (token ≠ text)

/-- `parse_streaming_increment`. -/
def parseStreamingIncrement (d : BaseReasoningFormatDetector) (newText : Text) :
    BaseReasoningFormatDetector × ReasoningResult :=
  let currentText := d.buffer ++ newText
  let d := { d with buffer := currentText }
  if d.isTagPrefix currentText then (d, ⟨[], []⟩)
  else
    let (d, currentText) :=
      if !d.strippedThinkStart ∧ d.thinkStartToken <:+: currentText then
        ({ d with strippedThinkStart := true, inReasoning := true }, removeParts d.thinkStartToken 0 currentText)
      else (d, currentText)
    if d.inReasoning then
      match findPart d.thinkEndToken currentText with
      | some endIdx =>
        ({ d with buffer := [], inReasoning := false },
          ⟨currentText.drop (endIdx + d.thinkEndToken.length), rstrip (currentText.take endIdx)⟩)
      | none =>
        if d.streamReasoning then ({ d with buffer := [] }, ⟨[], currentText⟩)
        -- the start tag stays in the buffer
        else (d, ⟨[], []⟩)
    else ({ d with buffer := [] }, ⟨currentText, []⟩)

/-- The increments of a division into chunks, concatenated. -/
def parseChunks (d : BaseReasoningFormatDetector) : List Text → BaseReasoningFormatDetector × ReasoningResult
  | [] => (d, ⟨[], []⟩)
  | chunk :: chunks =>
    let (d, result) := d.parseStreamingIncrement chunk
    let (d, rest) := d.parseChunks chunks
    (d, ⟨result.normalText ++ rest.normalText, result.reasoningText ++ rest.reasoningText⟩)

end BaseReasoningFormatDetector

/-- `DeepSeekR1Detector`. -/
def deepSeekR1Detector (streamReasoning : Bool) : BaseReasoningFormatDetector :=
  .new "<think>".toList "</think>".toList true streamReasoning

/-- `Qwen3Detector`. -/
def qwen3Detector (streamReasoning forceReasoning : Bool) : BaseReasoningFormatDetector :=
  .new "<think>".toList "</think>".toList forceReasoning streamReasoning

/-- `KimiDetector`, which is not forced. -/
def kimiDetector (streamReasoning : Bool) : BaseReasoningFormatDetector :=
  .new "◁think▷".toList "◁/think▷".toList false streamReasoning

end QCFuse.Source
