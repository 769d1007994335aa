import QCFuse.Source.ReasoningParser

/-!
# The reasoning split and its chunks

The increments of a division into chunks against the one-time split. Chunks that together only begin a tag are
read with the next chunk; an end tag is found if it lies in chunks that are read together.
-/

set_option autoImplicit false

namespace QCFuse.Guarantees

open QCFuse.Library QCFuse.Source QCFuse.Source.BaseReasoningFormatDetector

/-- A start tag and an end tag that begin with the same character, which is nowhere else in them. -/
structure ReasoningTags where
  opener : Char
  startRest : Text
  endRest : Text
  opener_space : isSpace opener = false
  notMem_startRest : opener ∉ startRest
  notMem_endRest : opener ∉ endRest
  length_le : startRest.length ≤ endRest.length
  differ : ¬ startRest <+: endRest
  closer : Char
  getLast : endRest.getLast? = some closer
  closer_space : isSpace closer = false

def thinkTags : ReasoningTags where
  opener := '<'
  startRest := "think>".toList
  endRest := "/think>".toList
  closer := '>'
  opener_space := by decide
  notMem_startRest := by decide
  notMem_endRest := by decide
  length_le := by decide
  differ := by decide
  getLast := by decide
  closer_space := by decide

def kimiTags : ReasoningTags where
  opener := '◁'
  startRest := "think▷".toList
  endRest := "/think▷".toList
  closer := '▷'
  opener_space := by decide
  notMem_startRest := by decide
  notMem_endRest := by decide
  length_le := by decide
  differ := by decide
  getLast := by decide
  closer_space := by decide

namespace ReasoningTags

variable (tags : ReasoningTags)

def startTag : Text := tags.opener :: tags.startRest

def endTag : Text := tags.opener :: tags.endRest

/-- A detector of the tags. -/
def detector (forceReasoning streamReasoning : Bool) : BaseReasoningFormatDetector :=
  .new tags.startTag tags.endTag forceReasoning streamReasoning

/-- A text that begins a tag, and is not a whole one. -/
def Begins (text : Text) : Prop :=
  text <+: tags.startTag ∧ tags.startTag ≠ text ∨ text <+: tags.endTag ∧ tags.endTag ≠ text

instance (text : Text) : Decidable (tags.Begins text) := inferInstanceAs (Decidable (_ ∨ _))

/-- Chunks joined as long as they only begin a tag, behind what is held of the chunks before: the texts that are
read, and what is held in the end. -/
def joined : Text → List Text → List Text × Text
  | held, [] => ([], held)
  | held, chunk :: chunks =>
    if tags.Begins (held ++ chunk) then joined (held ++ chunk) chunks
    else ((held ++ chunk) :: (joined [] chunks).1, (joined [] chunks).2)

end ReasoningTags

theorem deepSeekR1Detector_eq (streamReasoning : Bool) :
    deepSeekR1Detector streamReasoning = thinkTags.detector true streamReasoning := rfl

theorem qwen3Detector_eq (streamReasoning forceReasoning : Bool) :
    qwen3Detector streamReasoning forceReasoning = thinkTags.detector forceReasoning streamReasoning := rfl

theorem kimiDetector_eq (streamReasoning : Bool) :
    kimiDetector streamReasoning = kimiTags.detector false streamReasoning := rfl

/-! ## Tags in a text -/

namespace ReasoningTags

variable {tags : ReasoningTags} {text : Text}

theorem length_startTag_le : tags.startTag.length ≤ tags.endTag.length :=
  Nat.succ_le_succ tags.length_le

theorem startTag_not_prefix : ¬ tags.startTag <+: tags.endTag := fun h =>
  tags.differ (List.cons_prefix_cons.mp h).2

theorem endTag_not_prefix : ¬ tags.endTag <+: tags.startTag := fun h =>
  startTag_not_prefix (by rw [h.eq_of_length_le length_startTag_le])

theorem Begins.of_prefix {text' : Text} (h : tags.Begins text) (hpre : text' <+: text) : tags.Begins text' := by
  rcases h with ⟨htag, hne⟩ | ⟨htag, hne⟩
  · exact Or.inl ⟨hpre.trans htag, fun heq => hne (heq ▸ (htag.eq_of_length_le (heq ▸ hpre.length_le)).symm)⟩
  · exact Or.inr ⟨hpre.trans htag, fun heq => hne (heq ▸ (htag.eq_of_length_le (heq ▸ hpre.length_le)).symm)⟩

theorem Begins.length_lt (h : tags.Begins text) : text.length < tags.endTag.length := by
  rcases h with ⟨htag, hne⟩ | ⟨htag, hne⟩
  · exact (lt_of_le_of_ne htag.length_le fun heq => hne (htag.eq_of_length heq).symm).trans_le length_startTag_le
  · exact lt_of_le_of_ne htag.length_le fun heq => hne (htag.eq_of_length heq).symm

theorem Begins.not_startTag_prefix (h : tags.Begins text) : ¬ tags.startTag <+: text := by
  intro hstart
  rcases h with ⟨htag, hne⟩ | ⟨htag, -⟩
  · exact hne (hstart.eq_of_length_le htag.length_le)
  · exact startTag_not_prefix (hstart.trans htag)

theorem Begins.not_endTag (h : tags.Begins text) : ¬ tags.endTag <:+: text := fun hend =>
  absurd hend.length_le (Nat.not_le.mpr h.length_lt)

/-- What begins a tag begins with a character that is not a space. -/
theorem Begins.head (h : tags.Begins text) (hne : text ≠ []) : ∃ rest, text = tags.opener :: rest := by
  cases text with
  | nil => exact absurd rfl hne
  | cons c rest =>
    rcases h with ⟨htag, -⟩ | ⟨htag, -⟩ <;> exact ⟨rest, by rw [(List.cons_prefix_cons.mp htag).1]⟩

/-- An end tag behind a start tag lies behind all of it. -/
theorem endTag_infix_of_startTag {rest : Text} (h : tags.endTag <:+: tags.startTag ++ rest) :
    tags.endTag <:+: rest := by
  obtain ⟨a, b, hab⟩ := h
  rw [List.append_assoc] at hab
  by_cases hlen : tags.startTag.length ≤ a.length
  · have hdrop := congrArg (List.drop tags.startTag.length) hab
    rw [List.drop_left, List.drop_append_of_le_length hlen, ← List.append_assoc] at hdrop
    exact ⟨_, b, hdrop⟩
  · exfalso
    cases a with
    | nil =>
      rw [List.nil_append] at hab
      rcases List.append_eq_append_iff.mp hab with ⟨more, hmore, -⟩ | ⟨more, hmore, -⟩
      · exact endTag_not_prefix ⟨more, hmore.symm⟩
      · exact startTag_not_prefix ⟨more, hmore.symm⟩
    | cons c a =>
      -- the end tag begins inside the start tag, where its first character is not
      have hopener : (tags.startTag ++ rest)[a.length + 1]? = some tags.opener := by
        rw [← hab, List.getElem?_append_right (by simp)]
        simp [endTag]
      rw [List.getElem?_append_left (by simpa using hlen)] at hopener
      exact tags.notMem_startRest (List.mem_of_getElem? (i := a.length) hopener)

end ReasoningTags

/-! ## What is read -/

section Read

variable {tags : ReasoningTags}

/-- A detector of the tags in the middle of a text. -/
def detectorAt (tags : ReasoningTags) (inReasoning streamReasoning : Bool) (buffer : Text) (stripped : Bool) :
    BaseReasoningFormatDetector :=
  ⟨tags.startTag, tags.endTag, inReasoning, streamReasoning, buffer, stripped⟩

/-- What is made of a text once it is read, behind the start tag. -/
def readText (tags : ReasoningTags) (inReasoning streamReasoning : Bool) (buffer : Text) (stripped : Bool)
    (text : Text) : BaseReasoningFormatDetector × ReasoningResult :=
  if inReasoning then
    match findPart tags.endTag text with
    | some endIdx => (detectorAt tags false streamReasoning [] stripped,
        ⟨text.drop (endIdx + tags.endTag.length), rstrip (text.take endIdx)⟩)
    | none =>
      if streamReasoning then (detectorAt tags true streamReasoning [] stripped, ⟨[], text⟩)
      else (detectorAt tags true streamReasoning buffer stripped, ⟨[], []⟩)
  else (detectorAt tags false streamReasoning [] stripped, ⟨text, []⟩)

variable {inReasoning streamReasoning stripped : Bool} {buffer chunk : Text}

theorem isTagPrefix_iff {d : BaseReasoningFormatDetector} (hstart : d.thinkStartToken = tags.startTag)
    (hend : d.thinkEndToken = tags.endTag) (text : Text) : d.isTagPrefix text = true ↔ tags.Begins text := by
  simp [isTagPrefix, hstart, hend, ReasoningTags.Begins]

theorem parse_held (h : tags.Begins (buffer ++ chunk)) :
    (detectorAt tags inReasoning streamReasoning buffer stripped).parseStreamingIncrement chunk =
      (detectorAt tags inReasoning streamReasoning (buffer ++ chunk) stripped, ⟨[], []⟩) :=
  if_pos ((isTagPrefix_iff rfl rfl _).mpr h)

theorem parse_read (h : ¬ tags.Begins (buffer ++ chunk))
    (hstart : stripped = true ∨ ¬ tags.startTag <:+: buffer ++ chunk) :
    (detectorAt tags inReasoning streamReasoning buffer stripped).parseStreamingIncrement chunk =
      readText tags inReasoning streamReasoning (buffer ++ chunk) stripped (buffer ++ chunk) := by
  have hnew : ¬ ((!stripped) = true ∧ tags.startTag <:+: buffer ++ chunk) := by
    rintro ⟨hnot, hinfix⟩
    rcases hstart with rfl | hno
    · cases hnot
    · exact hno hinfix
  rw [parseStreamingIncrement]
  refine (if_neg fun hprefix => h ((isTagPrefix_iff rfl rfl _).mp hprefix)).trans ?_
  simp only [detectorAt, hnew, if_false]
  cases inReasoning <;> rfl

/-- The text with the whole start tag is read without it. -/
theorem parse_start {rest : Text} (h : buffer ++ chunk = tags.startTag ++ rest) (hrest : ¬ tags.startTag <:+: rest) :
    (detectorAt tags inReasoning streamReasoning buffer false).parseStreamingIncrement chunk =
      readText tags true streamReasoning (tags.startTag ++ rest) true rest := by
  have hbegins : ¬ tags.Begins (buffer ++ chunk) := fun hb =>
    hb.not_startTag_prefix (h ▸ List.prefix_append _ _)
  have hnew : (!false) = true ∧ tags.startTag <:+: tags.startTag ++ rest :=
    ⟨rfl, (List.prefix_append _ _).isInfix⟩
  have hne : tags.startTag ≠ [] := List.cons_ne_nil _ _
  have hremoved : removeParts tags.startTag 0 (tags.startTag ++ rest) = rest := by
    rw [removeParts_append_left hne, removeParts_of_not_infix hrest]
  rw [parseStreamingIncrement]
  refine (if_neg fun hprefix => hbegins ((isTagPrefix_iff rfl rfl _).mp hprefix)).trans ?_
  simp only [detectorAt, h, hnew, if_true, and_self, hremoved]
  rfl

theorem parseChunks_cons (d : BaseReasoningFormatDetector) (x : Text) (xs : List Text) :
    d.parseChunks (x :: xs) = (((d.parseStreamingIncrement x).1.parseChunks xs).1,
      ⟨(d.parseStreamingIncrement x).2.normalText ++ ((d.parseStreamingIncrement x).1.parseChunks xs).2.normalText,
        (d.parseStreamingIncrement x).2.reasoningText ++
          ((d.parseStreamingIncrement x).1.parseChunks xs).2.reasoningText⟩) := rfl

theorem parseChunks_append (d : BaseReasoningFormatDetector) (xs ys : List Text) :
    d.parseChunks (xs ++ ys) = (((d.parseChunks xs).1.parseChunks ys).1,
      ⟨(d.parseChunks xs).2.normalText ++ ((d.parseChunks xs).1.parseChunks ys).2.normalText,
        (d.parseChunks xs).2.reasoningText ++ ((d.parseChunks xs).1.parseChunks ys).2.reasoningText⟩) := by
  induction xs generalizing d with
  | nil => rfl
  | cons x xs ih => simp only [List.cons_append, parseChunks_cons, ih, List.append_assoc]

/-! ## Normal text -/

/-- Behind the reasoning all of the text is normal, but for what is held in the end. -/
theorem parseChunks_normal {chunks : List Text} {held : Text}
    (hstart : stripped = true ∨ ¬ tags.startTag <:+: held ++ chunks.flatten) :
    ((detectorAt tags false streamReasoning held stripped).parseChunks chunks).2.reasoningText = [] ∧
      ((detectorAt tags false streamReasoning held stripped).parseChunks chunks).2.normalText ++
        (tags.joined held chunks).2 = held ++ chunks.flatten := by
  induction chunks generalizing held with
  | nil => exact ⟨rfl, (List.append_nil _).symm⟩
  | cons chunk chunks ih =>
    rw [List.flatten_cons, ← List.append_assoc] at hstart ⊢
    rw [parseChunks_cons, ReasoningTags.joined]
    by_cases hheld : tags.Begins (held ++ chunk)
    · rw [parse_held hheld, if_pos hheld]
      exact ih hstart
    · have hread : (detectorAt tags false streamReasoning held stripped).parseStreamingIncrement chunk =
          (detectorAt tags false streamReasoning [] stripped, ⟨held ++ chunk, []⟩) :=
        parse_read hheld (hstart.imp id fun hno hin => hno (hin.trans (List.prefix_append _ _).isInfix))
      have hrest : stripped = true ∨ ¬ tags.startTag <:+: [] ++ chunks.flatten :=
        hstart.imp id fun hno hin => hno (hin.trans (List.suffix_append _ _).isInfix)
      obtain ⟨hreasoning, hnormal⟩ := ih hrest
      rw [hread, if_neg hheld]
      refine ⟨hreasoning, ?_⟩
      rw [List.append_assoc, hnormal]
      rfl

/-! ## Streamed reasoning -/

theorem readText_found {text a b : Text} (h : text = a ++ tags.endTag ++ b) (honce : AtMostOnce tags.endTag text) :
    readText tags true streamReasoning buffer stripped text =
      (detectorAt tags false streamReasoning [] stripped, ⟨b, rstrip a⟩) := by
  subst h
  have hdrop : (a ++ tags.endTag ++ b).drop (a.length + tags.endTag.length) = b := by
    rw [← List.length_append, List.drop_left]
  have htake : (a ++ tags.endTag ++ b).take a.length = a := by
    rw [List.append_assoc, List.take_left]
  simp only [readText, if_true, findPart_eq_of_atMostOnce honce, hdrop, htake]

theorem readText_none {text : Text} (h : ¬ tags.endTag <:+: text) :
    readText tags true true buffer stripped text = (detectorAt tags true true [] stripped, ⟨[], text⟩) := by
  simp only [readText, if_true, findPart_eq_none_iff.mpr h]

/-- The reasoning is streamed up to the end tag if one of the texts that are read has it, and to the end if none
has. -/
def StreamedAs (tags : ReasoningTags) (read : List Text × Text) (text : Text) (result : ReasoningResult) : Prop :=
  (∃ piece ∈ read.1, tags.endTag <:+: piece) ∧ (∃ a b c, a ++ b ++ tags.endTag ++ c = text ∧
      result.reasoningText = a ++ rstrip b ∧ result.normalText ++ read.2 = c) ∨
    (∀ piece ∈ read.1, ¬ tags.endTag <:+: piece) ∧ result.normalText = [] ∧ result.reasoningText ++ read.2 = text

/-- A text without the end tag is read first. -/
theorem StreamedAs.cons {read : List Text × Text} {text piece shown : Text} {result : ReasoningResult}
    (h : StreamedAs tags read text result) (hpiece : ¬ tags.endTag <:+: piece) :
    StreamedAs tags (piece :: read.1, read.2) (shown ++ text)
      ⟨result.normalText, shown ++ result.reasoningText⟩ := by
  rcases h with ⟨⟨found, hmem, hin⟩, a, b, c, htext, hreasoning, hnormal⟩ | ⟨hnone, hnormal, hreasoning⟩
  · refine Or.inl ⟨⟨found, List.mem_cons_of_mem _ hmem, hin⟩, shown ++ a, b, c, ?_, ?_, hnormal⟩
    · rw [← htext]
      simp only [List.append_assoc]
    · rw [hreasoning, List.append_assoc]
  · refine Or.inr ⟨List.forall_mem_cons.mpr ⟨hpiece, hnone⟩, hnormal, ?_⟩
    rw [List.append_assoc, hreasoning]

/-- A text with the end tag is read first, and normal text behind it. -/
theorem streamedAs_found {chunks : List Text} {piece a b : Text} (hpiece : tags.endTag <:+: piece)
    (hstart : stripped = true ∨ ¬ tags.startTag <:+: [] ++ chunks.flatten) :
    StreamedAs tags (piece :: (tags.joined [] chunks).1, (tags.joined [] chunks).2)
      (a ++ tags.endTag ++ (b ++ chunks.flatten))
      ⟨b ++ ((detectorAt tags false true [] stripped).parseChunks chunks).2.normalText,
        rstrip a ++ ((detectorAt tags false true [] stripped).parseChunks chunks).2.reasoningText⟩ := by
  obtain ⟨hreasoning, hnormal⟩ :
      ((detectorAt tags false true [] stripped).parseChunks chunks).2.reasoningText = [] ∧ _ :=
    parseChunks_normal hstart
  refine Or.inl ⟨⟨piece, List.mem_cons_self, hpiece⟩, [], a, b ++ chunks.flatten, rfl, ?_, ?_⟩
  · rw [hreasoning, List.append_nil]
    rfl
  · rw [List.append_assoc, hnormal]
    rfl

theorem parseChunks_stream {chunks : List Text} {held : Text}
    (hstart : stripped = true ∨ ¬ tags.startTag <:+: held ++ chunks.flatten)
    (honce : AtMostOnce tags.endTag (held ++ chunks.flatten)) :
    StreamedAs tags (tags.joined held chunks) (held ++ chunks.flatten)
      ((detectorAt tags true true held stripped).parseChunks chunks).2 := by
  induction chunks generalizing held with
  | nil => exact Or.inr ⟨fun _ hpiece => (by cases hpiece), rfl, (List.append_nil _).symm⟩
  | cons chunk chunks ih =>
    rw [List.flatten_cons, ← List.append_assoc] at hstart honce ⊢
    rw [parseChunks_cons, ReasoningTags.joined]
    by_cases hheld : tags.Begins (held ++ chunk)
    · rw [parse_held hheld, if_pos hheld]
      exact ih hstart honce
    · have hrest : stripped = true ∨ ¬ tags.startTag <:+: [] ++ chunks.flatten :=
        hstart.imp id fun hno hin => hno (hin.trans (List.suffix_append _ _).isInfix)
      rw [parse_read hheld (hstart.imp id fun hno hin => hno (hin.trans (List.prefix_append _ _).isInfix)),
        if_neg hheld]
      by_cases hend : tags.endTag <:+: held ++ chunk
      · obtain ⟨a, b, hab⟩ := hend
        rw [readText_found hab.symm (honce.of_infix (List.prefix_append _ _).isInfix), ← hab, List.append_assoc _ b]
        exact streamedAs_found ⟨a, b, rfl⟩ hrest
      · rw [readText_none hend]
        exact (ih hrest (honce.of_infix (List.suffix_append _ _).isInfix)).cons hend

/-- The start tag is read first, over several chunks or with what follows it. -/
theorem parseChunks_stream_start {chunks : List Text} {held rest : Text}
    (htext : held ++ chunks.flatten = tags.startTag ++ rest) (hheld : held.length < tags.startTag.length)
    (hrest : ¬ tags.startTag <:+: rest) (honce : AtMostOnce tags.endTag rest) :
    StreamedAs tags (tags.joined held chunks) rest
      ((detectorAt tags inReasoning true held false).parseChunks chunks).2 := by
  induction chunks generalizing held with
  | nil =>
    have hlen := congrArg List.length htext
    rw [List.flatten_nil, List.append_nil, List.length_append] at hlen
    omega
  | cons chunk chunks ih =>
    rw [List.flatten_cons, ← List.append_assoc] at htext
    rw [parseChunks_cons, ReasoningTags.joined]
    by_cases hlen : (held ++ chunk).length < tags.startTag.length
    · have hbegins : tags.Begins (held ++ chunk) := by
        refine Or.inl ⟨List.prefix_of_prefix_length_le ⟨_, htext⟩ (List.prefix_append _ _) hlen.le, fun heq => ?_⟩
        rw [← heq] at hlen
        exact lt_irrefl _ hlen
      rw [parse_held hbegins, if_pos hbegins]
      exact ih htext hlen
    · obtain ⟨x, hx⟩ := List.prefix_of_prefix_length_le (List.prefix_append tags.startTag rest) ⟨_, htext⟩
        (Nat.not_lt.mp hlen)
      have hbegins : ¬ tags.Begins (held ++ chunk) := fun hb => hb.not_startTag_prefix ⟨x, hx⟩
      have hsplit : rest = x ++ chunks.flatten := by
        rw [← hx, List.append_assoc] at htext
        exact (List.append_cancel_left htext).symm
      subst hsplit
      rw [parse_start hx.symm fun hin => hrest (hin.trans (List.prefix_append _ _).isInfix), if_neg hbegins]
      by_cases hend : tags.endTag <:+: x
      · obtain ⟨a, b, hab⟩ := hend
        rw [readText_found hab.symm (honce.of_infix (List.prefix_append _ _).isInfix), ← hab, List.append_assoc _ b]
        refine streamedAs_found ?_ (Or.inl rfl)
        rw [← hx, ← hab]
        exact ⟨tags.startTag ++ a, b, by simp only [List.append_assoc]⟩
      · rw [readText_none hend]
        refine (parseChunks_stream (Or.inl rfl) (honce.of_infix (List.suffix_append _ _).isInfix)).cons ?_
        rw [← hx]
        exact fun hin => hend (ReasoningTags.endTag_infix_of_startTag hin)

/-! ## Collected reasoning -/

/-- Without streaming the text is kept until it has the end tag. -/
theorem parseChunks_collect {chunks : List Text} {held : Text}
    (hstart : stripped = true ∨ ¬ tags.startTag <:+: held ++ chunks.flatten)
    (hend : ¬ tags.endTag <:+: held ++ chunks.flatten) :
    (detectorAt tags true false held stripped).parseChunks chunks =
      (detectorAt tags true false (held ++ chunks.flatten) stripped, ⟨[], []⟩) := by
  induction chunks generalizing held with
  | nil => rw [List.flatten_nil, List.append_nil]; rfl
  | cons chunk chunks ih =>
    rw [List.flatten_cons, ← List.append_assoc] at hstart hend ⊢
    have hstep : (detectorAt tags true false held stripped).parseStreamingIncrement chunk =
        (detectorAt tags true false (held ++ chunk) stripped, ⟨[], []⟩) := by
      by_cases hheld : tags.Begins (held ++ chunk)
      · exact parse_held hheld
      · have hnone : ¬ tags.endTag <:+: held ++ chunk := fun hin =>
          hend (hin.trans (List.prefix_append _ _).isInfix)
        rw [parse_read hheld (hstart.imp id fun hno hin => hno (hin.trans (List.prefix_append _ _).isInfix))]
        simp only [readText, if_true, findPart_eq_none_iff.mpr hnone, Bool.false_eq_true, if_false]
    rw [parseChunks_cons, hstep, ih hstart hend]
    rfl

/-- A part of the start tag is held. -/
theorem parseChunks_collect_held {chunks : List Text} {held : Text}
    (hpre : held ++ chunks.flatten <+: tags.startTag)
    (hlen : (held ++ chunks.flatten).length < tags.startTag.length) :
    (detectorAt tags inReasoning streamReasoning held stripped).parseChunks chunks =
      (detectorAt tags inReasoning streamReasoning (held ++ chunks.flatten) stripped, ⟨[], []⟩) := by
  induction chunks generalizing held with
  | nil => rw [List.flatten_nil, List.append_nil]; rfl
  | cons chunk chunks ih =>
    rw [List.flatten_cons, ← List.append_assoc] at hpre hlen ⊢
    have hbegins : tags.Begins (held ++ chunk) := by
      refine ReasoningTags.Begins.of_prefix (Or.inl ⟨hpre, fun heq => ?_⟩) (List.prefix_append _ chunks.flatten)
      rw [← heq] at hlen
      exact lt_irrefl _ hlen
    rw [parseChunks_cons, parse_held hbegins, ih hpre hlen]
    rfl

/-- The whole start tag is taken for read, and stays in what is kept. -/
theorem parseChunks_collect_start {chunks : List Text} {held rest : Text}
    (htext : held ++ chunks.flatten = tags.startTag ++ rest) (hheld : held.length < tags.startTag.length)
    (hrest : ¬ tags.startTag <:+: rest) (hend : ¬ tags.endTag <:+: rest) :
    (detectorAt tags inReasoning false held false).parseChunks chunks =
      (detectorAt tags true false (tags.startTag ++ rest) true, ⟨[], []⟩) := by
  induction chunks generalizing held with
  | nil =>
    have hlen := congrArg List.length htext
    rw [List.flatten_nil, List.append_nil, List.length_append] at hlen
    omega
  | cons chunk chunks ih =>
    rw [List.flatten_cons, ← List.append_assoc] at htext
    rw [parseChunks_cons]
    by_cases hlen : (held ++ chunk).length < tags.startTag.length
    · have hbegins : tags.Begins (held ++ chunk) := by
        refine Or.inl ⟨List.prefix_of_prefix_length_le ⟨_, htext⟩ (List.prefix_append _ _) hlen.le, fun heq => ?_⟩
        rw [← heq] at hlen
        exact lt_irrefl _ hlen
      rw [parse_held hbegins]
      exact ih htext hlen
    · obtain ⟨x, hx⟩ := List.prefix_of_prefix_length_le (List.prefix_append tags.startTag rest) ⟨_, htext⟩
        (Nat.not_lt.mp hlen)
      have hsplit : rest = x ++ chunks.flatten := by
        rw [← hx, List.append_assoc] at htext
        exact (List.append_cancel_left htext).symm
      subst hsplit
      have hnone : ¬ tags.endTag <:+: x := fun hin => hend (hin.trans (List.prefix_append _ _).isInfix)
      have hall : ¬ tags.endTag <:+: tags.startTag ++ x ++ chunks.flatten := by
        rw [List.append_assoc]
        exact fun hin => hend (ReasoningTags.endTag_infix_of_startTag hin)
      rw [parse_start hx.symm fun hin => hrest (hin.trans (List.prefix_append _ _).isInfix)]
      simp only [readText, if_true, findPart_eq_none_iff.mpr hnone, Bool.false_eq_true, if_false]
      rw [parseChunks_collect (Or.inl rfl) hall, List.append_assoc]
      rfl

end Read

/-! ## The one-time split -/

section OneTime

variable {tags : ReasoningTags} {forceReasoning streamReasoning : Bool} {text : Text}

theorem detectAndParse_normal (hforce : forceReasoning = false) (hstart : ¬ tags.startTag <:+: text) :
    (tags.detector forceReasoning streamReasoning).detectAndParse text = ⟨text, []⟩ := by
  simp [detectAndParse, ReasoningTags.detector, BaseReasoningFormatDetector.new, hforce, hstart]

/-- What the one-time split makes of a text with reasoning. -/
theorem detectAndParse_reasoning (h : forceReasoning = true ∨ tags.startTag <:+: text) :
    (tags.detector forceReasoning streamReasoning).detectAndParse text =
      match findPart tags.endTag (strip (removeParts tags.startTag 0 text)) with
      | none => ⟨[], strip (removeParts tags.startTag 0 text)⟩
      | some endIdx => ⟨strip ((strip (removeParts tags.startTag 0 text)).drop (endIdx + tags.endTag.length)),
          (strip (removeParts tags.startTag 0 text)).take endIdx⟩ := by
  have hin : (!(forceReasoning || decide (tags.startTag <:+: text))) = false := by
    rcases h with h | h <;> simp [h]
  exact if_neg (Bool.eq_false_iff.mp hin)

theorem detectAndParse_cut (h : forceReasoning = true ∨ tags.startTag <:+: text) {body : Text}
    (hbody : removeParts tags.startTag 0 text = body) (hend : ¬ tags.endTag <:+: body) :
    (tags.detector forceReasoning streamReasoning).detectAndParse text = ⟨[], strip body⟩ := by
  have hnone : findPart tags.endTag (strip body) = none :=
    findPart_eq_none_iff.mpr fun hin => hend (hin.trans (trim_isInfix body))
  rw [detectAndParse_reasoning h, hbody, hnone]

theorem detectAndParse_whole (h : forceReasoning = true ∨ tags.startTag <:+: text) {a b : Text}
    (hbody : removeParts tags.startTag 0 text = a ++ tags.endTag ++ b)
    (honce : AtMostOnce tags.endTag (a ++ tags.endTag ++ b)) :
    (tags.detector forceReasoning streamReasoning).detectAndParse text = ⟨strip (rstrip b), a.dropWhile isSpace⟩ := by
  have hlast : tags.endTag.getLast? = some tags.closer := by
    rw [ReasoningTags.endTag, List.getLast?_cons, tags.getLast]
    rfl
  have hstrip : strip (a ++ tags.endTag ++ b) = a.dropWhile isSpace ++ tags.endTag ++ rstrip b :=
    trim_around tags.opener_space tags.closer_space a b rfl hlast
  have honce' : AtMostOnce tags.endTag (a.dropWhile isSpace ++ tags.endTag ++ rstrip b) := by
    rw [← hstrip]
    exact honce.of_infix (trim_isInfix _)
  have hfind := findPart_eq_of_atMostOnce honce'
  have hdrop : (a.dropWhile isSpace ++ tags.endTag ++ rstrip b).drop
      ((a.dropWhile isSpace).length + tags.endTag.length) = rstrip b := by
    rw [← List.length_append, List.drop_left]
  have htake : (a.dropWhile isSpace ++ tags.endTag ++ rstrip b).take (a.dropWhile isSpace).length =
      a.dropWhile isSpace := by
    rw [List.append_assoc, List.take_left]
  simp only [detectAndParse_reasoning h, hbody, hstrip, hfind, hdrop, htake]

end OneTime

/-! ## The two compared -/

/-- The same reasoning and the same normal text, up to white space at their ends. -/
def SplitAgrees (streamed once : ReasoningResult) : Prop :=
  strip streamed.reasoningText = strip once.reasoningText ∧ strip streamed.normalText = strip once.normalText

theorem strip_strip (text : Text) : strip (strip text) = strip text := trim_trim text

theorem strip_rstrip (text : Text) : strip (rstrip text) = strip text := trim_rdropWhile text

/-- Texts with different numbers of characters that are not spaces. -/
theorem strip_ne_of_countP {x y : Text} (h : (y.countP fun c => !isSpace c) < x.countP fun c => !isSpace c) :
    strip x ≠ strip y := by
  intro heq
  have hcount := congrArg (List.countP fun c => !isSpace c) heq
  rw [strip, strip, countP_trim, countP_trim] at hcount
  omega

theorem countP_pos_of_mem {x : Text} {c : Char} (hc : isSpace c = false) (hmem : c ∈ x) :
    0 < x.countP fun c => !isSpace c :=
  List.countP_pos_iff.mpr ⟨c, hmem, by simp [hc]⟩

theorem strip_append_ne {x y : Text} {c : Char} (hc : isSpace c = false) (hmem : c ∈ y) :
    strip (x ++ y) ≠ strip x := by
  refine strip_ne_of_countP ?_
  rw [List.countP_append]
  exact Nat.lt_add_of_pos_right (countP_pos_of_mem hc hmem)

theorem strip_append_ne_right {x y : Text} {c : Char} (hc : isSpace c = false) (hmem : c ∈ x) :
    strip (x ++ y) ≠ strip y := by
  refine strip_ne_of_countP ?_
  rw [List.countP_append]
  exact Nat.lt_add_of_pos_left (countP_pos_of_mem hc hmem)

section Agree

variable {tags : ReasoningTags}

theorem joined_held {chunks : List Text} {held : Text} (h : held = [] ∨ tags.Begins held) :
    (tags.joined held chunks).2 = [] ∨ tags.Begins (tags.joined held chunks).2 := by
  induction chunks generalizing held with
  | nil => exact h
  | cons chunk chunks ih =>
    rw [ReasoningTags.joined]
    split
    next hbegins => exact ih (Or.inr hbegins)
    next => exact ih (Or.inl rfl)

/-- What is held in the end is missed, unless nothing is. -/
theorem strip_eq_append_iff {held : Text} (h : held = [] ∨ tags.Begins held) (text : Text) :
    strip text = strip (text ++ held) ↔ held = [] := by
  constructor
  · intro heq
    by_contra hne
    obtain ⟨rest, hrest⟩ := (h.resolve_left hne).head hne
    have hmem : tags.opener ∈ held := by
      rw [hrest]
      exact List.mem_cons_self
    exact strip_append_ne tags.opener_space hmem heq.symm
  · rintro rfl
    rw [List.append_nil]

/-- Streamed reasoning against the one-time split of the text behind the start tag. -/
theorem streamedAs_agrees {read : List Text × Text} {body : Text} {result once : ReasoningResult}
    (h : StreamedAs tags read body result) (hheld : read.2 = [] ∨ tags.Begins read.2)
    (hcut : ¬ tags.endTag <:+: body → once = ⟨[], strip body⟩)
    (hwhole : ∀ a b, body = a ++ tags.endTag ++ b → once = ⟨strip (rstrip b), a.dropWhile isSpace⟩) :
    SplitAgrees result once ↔
      read.2 = [] ∧ (tags.endTag <:+: body → ∃ piece ∈ read.1, tags.endTag <:+: piece) := by
  rcases h with ⟨hfound, a, b, c, hbody, hreasoning, hnormal⟩ | ⟨hnone, hnormal, hreasoning⟩
  · have honce := hwhole (a ++ b) c hbody.symm
    have hstripped : strip result.reasoningText = strip once.reasoningText := by
      rw [honce, hreasoning]
      exact (trim_append_rdropWhile a b).trans (trim_dropWhile _).symm
    rw [SplitAgrees, and_iff_right hstripped, and_iff_left fun _ => hfound, honce, strip_strip, strip_rstrip,
      ← hnormal]
    exact strip_eq_append_iff hheld _
  · by_cases hend : tags.endTag <:+: body
    · obtain ⟨a, b, hab⟩ := hend
      have honce := hwhole a b hab.symm
      refine iff_of_false (fun hagrees => ?_) fun hall => ?_
      · -- the reasoning has the beginning of the end tag
        have hshort : read.2.length < (tags.endTag ++ b).length := by
          rw [List.length_append]
          rcases hheld with hempty | hbegins
          · rw [hempty]
            exact Nat.lt_of_lt_of_le (Nat.succ_pos _) (Nat.le_add_right _ _)
          · exact hbegins.length_lt.trans_le (Nat.le_add_right _ _)
        have hsplit : result.reasoningText ++ read.2 = a ++ (tags.endTag ++ b) := by
          rw [hreasoning, ← hab, List.append_assoc]
        rcases List.append_eq_append_iff.mp hsplit with ⟨mid, ha, hrest⟩ | ⟨mid, hshown, hrest⟩
        · have := congrArg List.length hrest
          rw [List.length_append] at this
          omega
        · cases mid with
          | nil =>
            rw [List.nil_append] at hrest
            rw [hrest] at hshort
            exact lt_irrefl _ hshort
          | cons c mid =>
            have hc : c = tags.opener := by
              have hfirst := congrArg List.head? hrest
              exact (Option.some.inj hfirst).symm
            subst hc
            have hne : strip (a ++ tags.opener :: mid) ≠ strip a :=
              strip_append_ne tags.opener_space List.mem_cons_self
            rw [← hshown] at hne
            refine hne (hagrees.1.trans ?_)
            rw [honce]
            exact trim_dropWhile a
      · obtain ⟨piece, hpiece, hin⟩ := hall.2 ⟨a, b, hab⟩
        exact hnone piece hpiece hin
    · rw [SplitAgrees, hcut hend, hnormal, and_iff_left rfl, and_iff_left fun hin => absurd hin hend, strip_strip,
        ← hreasoning]
      exact strip_eq_append_iff hheld _

/-- A tag is nowhere but at the beginning of a text. -/
def OnlyAtStart (tag text : Text) : Prop := ∀ a b, text = a ++ tag ++ b → a = []

/-- The start tag is read off the beginning of the text. -/
theorem body_cases {text : Text} (h : OnlyAtStart tags.startTag text) :
    ¬ tags.startTag <:+: text ∧ removeParts tags.startTag 0 text = text ∨
      ∃ rest, text = tags.startTag ++ rest ∧ ¬ tags.startTag <:+: rest ∧ removeParts tags.startTag 0 text = rest := by
  by_cases hstart : tags.startTag <:+: text
  · obtain ⟨a, rest, hrest⟩ := hstart
    cases h a rest hrest.symm
    have hne : tags.startTag ≠ [] := List.cons_ne_nil _ _
    have hnot : ¬ tags.startTag <:+: rest := by
      rintro ⟨u, v, huv⟩
      have hnil := h (tags.startTag ++ u) v (by rw [← hrest, ← huv]; simp)
      exact hne (List.append_eq_nil_iff.mp hnil).1
    refine Or.inr ⟨rest, hrest.symm, hnot, ?_⟩
    rw [← hrest, List.nil_append, removeParts_append_left hne, removeParts_of_not_infix hnot]
  · exact Or.inl ⟨hstart, removeParts_of_not_infix hstart⟩

/-- No tag is cut where it matters. Without reasoning nothing is held in the end. Streamed, nothing is held in the
end and the end tag is in chunks that are read together. Collected, the end tag comes to an end with the chunk that
the start tag comes to an end with, and nothing is held behind it. -/
def TagsWhole (tags : ReasoningTags) (forceReasoning streamReasoning : Bool) (chunks : List Text) : Prop :=
  if forceReasoning = false ∧ ¬ tags.startTag <:+: chunks.flatten then (tags.joined [] chunks).2 = []
  else if streamReasoning = true then
    (tags.joined [] chunks).2 = [] ∧
      (tags.endTag <:+: chunks.flatten → ∃ piece ∈ (tags.joined [] chunks).1, tags.endTag <:+: piece)
  else ∃ before chunk after, chunks = before ++ chunk :: after ∧ ¬ tags.endTag <:+: before.flatten ∧
    tags.endTag <:+: before.flatten ++ chunk ∧ ¬ tags.startTag <:+: before.flatten ∧ (tags.joined [] after).2 = []

variable {forceReasoning : Bool} {chunks : List Text}

theorem stream_agrees (hS : OnlyAtStart tags.startTag chunks.flatten) (hE : AtMostOnce tags.endTag chunks.flatten)
    (hreasoning : forceReasoning = true ∨ tags.startTag <:+: chunks.flatten) :
    SplitAgrees ((tags.detector forceReasoning true).parseChunks chunks).2
        ((tags.detector forceReasoning true).detectAndParse chunks.flatten) ↔
      (tags.joined [] chunks).2 = [] ∧
        (tags.endTag <:+: chunks.flatten → ∃ piece ∈ (tags.joined [] chunks).1, tags.endTag <:+: piece) := by
  have hheld : (tags.joined [] chunks).2 = [] ∨ tags.Begins (tags.joined [] chunks).2 := joined_held (Or.inl rfl)
  rcases body_cases hS with ⟨hno, hbody⟩ | ⟨rest, htext, hrest, hbody⟩
  · have hforce : forceReasoning = true := hreasoning.resolve_right hno
    subst hforce
    have hstart : false = true ∨ ¬ tags.startTag <:+: [] ++ chunks.flatten := Or.inr hno
    have hstreamed := parseChunks_stream hstart hE
    refine streamedAs_agrees hstreamed hheld (fun hend => detectAndParse_cut hreasoning hbody hend) fun a b hab => ?_
    exact detectAndParse_whole hreasoning (hbody.trans hab) (hab ▸ hE)
  · have honce : AtMostOnce tags.endTag rest := hE.of_infix (htext ▸ (List.suffix_append _ _).isInfix)
    have hopening : [] ++ chunks.flatten = tags.startTag ++ rest := htext
    have hstreamed : StreamedAs tags (tags.joined [] chunks) rest
        ((tags.detector forceReasoning true).parseChunks chunks).2 :=
      parseChunks_stream_start hopening (Nat.succ_pos _) hrest honce
    have hend : tags.endTag <:+: chunks.flatten ↔ tags.endTag <:+: rest := by
      rw [htext]
      exact ⟨ReasoningTags.endTag_infix_of_startTag, fun h => h.trans (List.suffix_append _ _).isInfix⟩
    rw [hend]
    refine streamedAs_agrees hstreamed hheld (fun hend => detectAndParse_cut hreasoning hbody hend) fun a b hab => ?_
    exact detectAndParse_whole hreasoning (hbody.trans hab) (hab ▸ honce)

/-- The chunk that a part of the text comes to an end with. -/
theorem exists_ending {part : Text} (hne : part ≠ []) (h : part <:+: chunks.flatten) :
    ∃ before chunk after, chunks = before ++ chunk :: after ∧ ¬ part <:+: before.flatten ∧
      part <:+: before.flatten ++ chunk := by
  induction chunks using List.reverseRecOn with
  | nil => exact absurd (List.infix_nil.mp h) hne
  | append_singleton chunks chunk ih =>
    by_cases hbefore : part <:+: chunks.flatten
    · obtain ⟨before, c, after, rfl, hnot, hin⟩ := ih hbefore
      exact ⟨before, c, after ++ [chunk], by simp, hnot, hin⟩
    · exact ⟨chunks, chunk, [], rfl, hbefore, by simpa using h⟩

theorem ending_unique {part : Text} {before before' after after' : List Text} {chunk chunk' : Text}
    (h : before ++ chunk :: after = before' ++ chunk' :: after') (hnot : ¬ part <:+: before.flatten)
    (hnot' : ¬ part <:+: before'.flatten) (hin : part <:+: before.flatten ++ chunk)
    (hin' : part <:+: before'.flatten ++ chunk') : before = before' ∧ after = after' := by
  rcases List.append_eq_append_iff.mp h with ⟨mid, hb, hrest⟩ | ⟨mid, hb, hrest⟩
  · cases mid with
    | nil =>
      cases hrest
      exact ⟨by rw [hb, List.append_nil], rfl⟩
    | cons c mid =>
      cases hrest
      refine absurd (hin.trans ?_) hnot'
      rw [hb, List.flatten_append, List.flatten_cons, ← List.append_assoc]
      exact (List.prefix_append _ _).isInfix
  · cases mid with
    | nil =>
      cases hrest
      exact ⟨by rw [hb, List.append_nil], rfl⟩
    | cons c mid =>
      cases hrest
      refine absurd (hin'.trans ?_) hnot
      rw [hb, List.flatten_append, List.flatten_cons, ← List.append_assoc]
      exact (List.prefix_append _ _).isInfix

/-- The end tag comes to an end with a chunk, and the text behind it is normal. -/
theorem parseChunks_ended {d : BaseReasoningFormatDetector} {before after : List Text} {chunk a b : Text}
    {middle : BaseReasoningFormatDetector} {stripped : Bool} (hbefore : d.parseChunks before = (middle, ⟨[], []⟩))
    (hchunk : middle.parseStreamingIncrement chunk = (detectorAt tags false false [] stripped, ⟨b, rstrip a⟩))
    (hstart : stripped = true ∨ ¬ tags.startTag <:+: after.flatten) :
    (d.parseChunks (before ++ chunk :: after)).2.reasoningText = rstrip a ∧
      (d.parseChunks (before ++ chunk :: after)).2.normalText ++ (tags.joined [] after).2 = b ++ after.flatten := by
  have hrest : stripped = true ∨ ¬ tags.startTag <:+: [] ++ after.flatten := hstart
  obtain ⟨hreasoning, hnormal⟩ :
      ((detectorAt tags false false [] stripped).parseChunks after).2.reasoningText = [] ∧ _ :=
    parseChunks_normal hrest
  rw [parseChunks_append, hbefore, parseChunks_cons, hchunk]
  refine ⟨?_, ?_⟩
  · simp only [hreasoning, List.append_nil, List.nil_append]
  · simp only [List.nil_append, List.append_assoc]
    rw [hnormal]
    rfl

theorem ended_agrees {after : List Text} {a b : Text} {result once : ReasoningResult}
    (hresult : result.reasoningText = rstrip a ∧ result.normalText ++ (tags.joined [] after).2 = b)
    (honce : once = ⟨strip (rstrip b), a.dropWhile isSpace⟩) :
    SplitAgrees result once ↔ (tags.joined [] after).2 = [] := by
  have hstripped : strip result.reasoningText = strip once.reasoningText := by
    rw [hresult.1, honce, strip_rstrip]
    exact (trim_dropWhile a).symm
  rw [SplitAgrees, and_iff_right hstripped, honce, strip_strip, strip_rstrip, ← hresult.2]
  exact strip_eq_append_iff (joined_held (Or.inl rfl)) _

theorem collect_agrees (hS : OnlyAtStart tags.startTag chunks.flatten) (hE : AtMostOnce tags.endTag chunks.flatten)
    (hreasoning : forceReasoning = true ∨ tags.startTag <:+: chunks.flatten)
    (hend : tags.endTag <:+: chunks.flatten) :
    SplitAgrees ((tags.detector forceReasoning false).parseChunks chunks).2
        ((tags.detector forceReasoning false).detectAndParse chunks.flatten) ↔
      ∃ before chunk after, chunks = before ++ chunk :: after ∧ ¬ tags.endTag <:+: before.flatten ∧
        tags.endTag <:+: before.flatten ++ chunk ∧ ¬ tags.startTag <:+: before.flatten ∧
        (tags.joined [] after).2 = [] := by
  have hne : tags.endTag ≠ [] := List.cons_ne_nil _ _
  obtain ⟨before, chunk, after, rfl, hnot, hin⟩ := exists_ending hne hend
  have hflat : (before ++ chunk :: after).flatten = before.flatten ++ chunk ++ after.flatten := by
    rw [List.flatten_append, List.flatten_cons, List.append_assoc]
  rw [hflat] at hS hE hreasoning ⊢
  have hcondition : (∃ before' chunk' after', before ++ chunk :: after = before' ++ chunk' :: after' ∧
      ¬ tags.endTag <:+: before'.flatten ∧ tags.endTag <:+: before'.flatten ++ chunk' ∧
      ¬ tags.startTag <:+: before'.flatten ∧ (tags.joined [] after').2 = []) ↔
      ¬ tags.startTag <:+: before.flatten ∧ (tags.joined [] after).2 = [] := by
    constructor
    · rintro ⟨before', chunk', after', hsame, hnot', hin', hstart, hheld⟩
      obtain ⟨rfl, rfl⟩ := ending_unique hsame hnot hnot' hin hin'
      exact ⟨hstart, hheld⟩
    · rintro ⟨hstart, hheld⟩
      exact ⟨before, chunk, after, rfl, hnot, hin, hstart, hheld⟩
  rw [hcondition]
  rcases body_cases hS with ⟨hno, hbody⟩ | ⟨rest, htext, hrest, hbody⟩
  · have hforce : forceReasoning = true := hreasoning.resolve_right hno
    subst hforce
    have hstart : ¬ tags.startTag <:+: before.flatten := fun h => hno
      (h.trans ((List.prefix_append _ _).trans (List.prefix_append _ _)).isInfix)
    have hcollect : (tags.detector true false).parseChunks before =
        (detectorAt tags true false before.flatten false, ⟨[], []⟩) :=
      parseChunks_collect (Or.inr hstart) hnot
    obtain ⟨a, b, hab⟩ := hin
    have hread : (detectorAt tags true false before.flatten false).parseStreamingIncrement chunk =
        (detectorAt tags false false [] false, ⟨b, rstrip a⟩) :=
      (parse_read (fun h => h.not_endTag ⟨a, b, hab⟩)
        (Or.inr fun h => hno (h.trans (List.prefix_append _ _).isInfix))).trans
        (readText_found hab.symm (hE.of_infix (List.prefix_append _ _).isInfix))
    have hwhole : before.flatten ++ chunk ++ after.flatten = a ++ tags.endTag ++ (b ++ after.flatten) := by
      rw [← hab, List.append_assoc]
    rw [and_iff_right hstart]
    exact ended_agrees
      (parseChunks_ended hcollect hread (Or.inr fun h => hno (h.trans (List.suffix_append _ _).isInfix)))
      (detectAndParse_whole hreasoning (hbody.trans hwhole) (hwhole ▸ hE))
  · have honce : AtMostOnce tags.endTag rest := hE.of_infix (htext ▸ (List.suffix_append _ _).isInfix)
    have hlong : tags.startTag.length ≤ (before.flatten ++ chunk).length :=
      ReasoningTags.length_startTag_le.trans hin.length_le
    obtain ⟨x, hx⟩ := List.prefix_of_prefix_length_le (List.prefix_append tags.startTag rest) ⟨_, htext⟩ hlong
    have hsplit : rest = x ++ after.flatten := by
      rw [← hx, List.append_assoc] at htext
      exact (List.append_cancel_left htext).symm
    subst hsplit
    obtain ⟨a, b, hab⟩ := ReasoningTags.endTag_infix_of_startTag (hx ▸ hin)
    have hwhole : x ++ after.flatten = a ++ tags.endTag ++ (b ++ after.flatten) := by
      rw [← hab, List.append_assoc]
    have hoff : (tags.detector forceReasoning false).detectAndParse _ =
        ⟨strip (rstrip (b ++ after.flatten)), a.dropWhile isSpace⟩ :=
      detectAndParse_whole hreasoning (hbody.trans hwhole) (hwhole ▸ honce)
    by_cases hlen : before.flatten.length < tags.startTag.length
    · -- the start tag comes to an end with the same chunk
      have hstart : ¬ tags.startTag <:+: before.flatten := fun h => absurd h.length_le (Nat.not_le.mpr hlen)
      have hpre : before.flatten <+: tags.startTag :=
        List.prefix_of_prefix_length_le ⟨chunk, hx.symm⟩ (List.prefix_append _ x) hlen.le
      have hcollect : (tags.detector forceReasoning false).parseChunks before =
          (detectorAt tags forceReasoning false before.flatten false, ⟨[], []⟩) :=
        parseChunks_collect_held hpre hlen
      have hread : (detectorAt tags forceReasoning false before.flatten false).parseStreamingIncrement chunk =
          (detectorAt tags false false [] true, ⟨b, rstrip a⟩) :=
        (parse_start hx.symm fun h => hrest (h.trans (List.prefix_append _ _).isInfix)).trans
          (readText_found hab.symm (honce.of_infix (List.prefix_append _ _).isInfix))
      rw [and_iff_right hstart]
      exact ended_agrees (parseChunks_ended hcollect hread (Or.inl rfl)) hoff
    · -- the start tag is in the text that is kept, and in the reasoning
      obtain ⟨y, hy⟩ := List.prefix_of_prefix_length_le ⟨x, hx⟩ (List.prefix_append before.flatten chunk)
        (Nat.not_lt.mp hlen)
      have hxy : x = y ++ chunk := by
        rw [← hy, List.append_assoc] at hx
        exact List.append_cancel_left hx
      have hcollect : (tags.detector forceReasoning false).parseChunks before =
          (detectorAt tags true false (tags.startTag ++ y) true, ⟨[], []⟩) := by
        refine parseChunks_collect_start hy.symm (Nat.succ_pos _) (fun h => hrest ?_) fun h => hnot ?_
        · rw [hxy, List.append_assoc]
          exact h.trans (List.prefix_append _ _).isInfix
        · rw [← hy]
          exact h.trans (List.suffix_append _ _).isInfix
      have hkept : tags.startTag ++ y ++ chunk = tags.startTag ++ a ++ tags.endTag ++ b := by
        rw [List.append_assoc, ← hxy, ← hab]
        simp only [List.append_assoc]
      have hread : (detectorAt tags true false (tags.startTag ++ y) true).parseStreamingIncrement chunk =
          (detectorAt tags false false [] true, ⟨b, rstrip (tags.startTag ++ a)⟩) :=
        (parse_read (fun h => h.not_endTag ⟨tags.startTag ++ a, b, hkept.symm⟩) (Or.inl rfl)).trans
          (readText_found hkept (hE.of_infix (hy ▸ (List.prefix_append _ _).isInfix)))
      obtain ⟨hshown, -⟩ : ((tags.detector forceReasoning false).parseChunks
          (before ++ chunk :: after)).2.reasoningText = rstrip (tags.startTag ++ a) ∧ _ :=
        parseChunks_ended hcollect hread (Or.inl rfl)
      refine iff_of_false (fun hagrees => ?_) fun hall => hall.1 ⟨[], y, hy⟩
      have hreasons := hagrees.1
      rw [hshown, hoff, strip_rstrip] at hreasons
      exact strip_append_ne_right tags.opener_space List.mem_cons_self (hreasons.trans (trim_dropWhile a))

/-- The streamed split agrees with the one-time split exactly if no tag is cut where it matters. -/
theorem reasoning_split_iff (tags : ReasoningTags) (forceReasoning streamReasoning : Bool) (chunks : List Text)
    (hS : OnlyAtStart tags.startTag chunks.flatten) (hE : AtMostOnce tags.endTag chunks.flatten)
    (hoff : streamReasoning = false → tags.endTag <:+: chunks.flatten) :
    SplitAgrees ((tags.detector forceReasoning streamReasoning).parseChunks chunks).2
        ((tags.detector forceReasoning streamReasoning).detectAndParse chunks.flatten) ↔
      TagsWhole tags forceReasoning streamReasoning chunks := by
  unfold TagsWhole
  by_cases hnormal : forceReasoning = false ∧ ¬ tags.startTag <:+: chunks.flatten
  · rw [if_pos hnormal, detectAndParse_normal hnormal.1 hnormal.2]
    obtain ⟨hforce, hno⟩ := hnormal
    subst hforce
    have hstart : false = true ∨ ¬ tags.startTag <:+: [] ++ chunks.flatten := Or.inr hno
    obtain ⟨hreasoning, htext⟩ :
        ((tags.detector false streamReasoning).parseChunks chunks).2.reasoningText = [] ∧ _ = [] ++ chunks.flatten :=
      parseChunks_normal hstart
    rw [SplitAgrees, hreasoning, and_iff_right rfl, ← List.nil_append chunks.flatten, ← htext]
    exact strip_eq_append_iff (joined_held (Or.inl rfl)) _
  · have hreasoning : forceReasoning = true ∨ tags.startTag <:+: chunks.flatten := by
      rwa [not_and_or, Bool.not_eq_false, not_not] at hnormal
    rw [if_neg hnormal]
    cases streamReasoning with
    | true =>
      rw [if_pos rfl]
      exact stream_agrees hS hE hreasoning
    | false =>
      rw [if_neg Bool.false_ne_true]
      exact collect_agrees hS hE hreasoning (hoff rfl)

theorem onlyAtStart_of_drop {tag text : Text} (h : ∀ n ≤ text.length, tag <+: text.drop n → n = 0) :
    OnlyAtStart tag text := by
  intro a b hab
  refine List.length_eq_zero_iff.mp (h a.length ?_ ?_)
  · rw [hab, List.length_append, List.length_append]
    omega
  · rw [hab, List.append_assoc, List.drop_left]
    exact List.prefix_append _ _

theorem atMostOnce_of_drop {tag text : Text} (place : Nat) (h : ∀ n ≤ text.length, tag <+: text.drop n → n = place) :
    AtMostOnce tag text := by
  have hplace : ∀ a b, text = a ++ tag ++ b → a = text.take place := by
    intro a b hab
    have hlen : a.length = place := by
      refine h a.length ?_ ?_
      · rw [hab, List.length_append, List.length_append]
        omega
      · rw [hab, List.append_assoc, List.drop_left]
        exact List.prefix_append _ _
    rw [hab, ← hlen, List.append_assoc, List.take_left]
  intro a b a' b' hab hab'
  rw [hplace a b hab, hplace a' b' hab']

/-- Both tags are cut, and the end tag behind a chunk boundary. -/
def wholeChunks : List Text := ["<thi".toList, "nk>".toList, "ab".toList, "</th".toList, "ink>c".toList]

theorem reasoning_split_iff_wholeChunks :
    SplitAgrees ((thinkTags.detector false true).parseChunks wholeChunks).2
      ((thinkTags.detector false true).detectAndParse wholeChunks.flatten) := by
  refine (reasoning_split_iff thinkTags false true wholeChunks (onlyAtStart_of_drop (by decide +kernel))
    (atMostOnce_of_drop 9 (by decide +kernel)) nofun).mpr ?_
  have hstart : ¬ (false = false ∧ ¬ thinkTags.startTag <:+: wholeChunks.flatten) := by decide +kernel
  rw [TagsWhole, if_neg hstart, if_pos rfl]
  exact ⟨by decide +kernel, fun _ => ⟨"</think>c".toList, by decide +kernel, by decide +kernel⟩⟩

/-- The end tag is cut behind a character of the reasoning. -/
def cutChunks : List Text := ["<think>a</thi".toList, "nk>b".toList]

theorem cut_end_tag_missed : ¬ ∀ (tags : ReasoningTags) (forceReasoning streamReasoning : Bool) (chunks : List Text),
    (∀ chunk ∈ chunks, chunk ≠ []) → OnlyAtStart tags.startTag chunks.flatten →
    AtMostOnce tags.endTag chunks.flatten → (streamReasoning = false → tags.endTag <:+: chunks.flatten) →
    SplitAgrees ((tags.detector forceReasoning streamReasoning).parseChunks chunks).2
      ((tags.detector forceReasoning streamReasoning).detectAndParse chunks.flatten) := by
  intro h
  have hagrees := h thinkTags false true cutChunks (by decide +kernel) (onlyAtStart_of_drop (by decide +kernel))
    (atMostOnce_of_drop 8 (by decide +kernel)) nofun
  exact absurd hagrees.2 (by decide +kernel)

end Agree

end QCFuse.Guarantees
