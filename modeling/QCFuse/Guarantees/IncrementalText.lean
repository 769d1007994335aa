import QCFuse.Library.Dict
import QCFuse.Library.Transition
import QCFuse.Library.Utf8
import QCFuse.Source.Detokenizer

/-!
# Incremental text

The `output_strs` of a request against the decoding of its ids at once. A status splits the ids into the
seed, the ids whose text is in `decoded_text`, and the ids that are held back; every text that was sent is a
prefix of what the ids decode to so far.
-/

set_option autoImplicit false

namespace QCFuse.Guarantees

open QCFuse.Library QCFuse.Source QCFuse.Source.DetokenizerManager

/-! ## Printable text -/

theorem throughLastSpace_prefix (text : Text) : throughLastSpace text <+: text := by
  have h := (List.dropWhile_suffix (l := text.reverse) fun c => decide (c ≠ ' ')).reverse
  rwa [List.reverse_reverse] at h

/-- What is printed of a held back text leaves its replacement character out. -/
theorem findPrintableText_isPrefix {text : Text} (h : text = [] ∨ text.getLast? = some Utf8.replacement) :
    findPrintableText text <+: text.dropLast := by
  rcases h with rfl | h
  · exact List.nil_prefix
  · obtain ⟨body, rfl⟩ : ∃ body, text = body ++ [Utf8.replacement] := by
      obtain ⟨ne, hlast⟩ := List.getLast?_eq_some_iff.mp h
      exact ⟨ne, hlast⟩
    have hnewline : (body ++ [Utf8.replacement]).getLast? ≠ some '\n' := by
      rw [List.getLast?_concat]
      decide
    have hchinese : ¬ ((body ++ [Utf8.replacement]).getLast?.any isChineseChar) = true := by
      rw [List.getLast?_concat]
      decide
    have hspace : throughLastSpace (body ++ [Utf8.replacement]) = throughLastSpace body := by
      rw [throughLastSpace, List.reverse_append]
      rfl
    rw [findPrintableText, if_neg hnewline, if_neg hchinese, List.dropLast_concat, hspace]
    split_ifs
    · exact List.prefix_rfl
    · exact throughLastSpace_prefix body

/-- What is printed of a held back text is complete. -/
theorem printable_prefix_emitted {bs : List UInt8}
    (h : Utf8.decode bs = [] ∨ (Utf8.decode bs).getLast? = some Utf8.replacement) :
    findPrintableText (Utf8.decode bs) <+: Utf8.emitted none bs := by
  refine (findPrintableText_isPrefix h).trans ?_
  rw [Utf8.decode, Utf8.decodeFrom_eq, Utf8.tail]
  split_ifs
  · rw [List.dropLast_concat]
  · rw [List.append_nil]
    exact List.dropLast_prefix _

/-! ## One request -/

/-- The octets of a list of ids. -/
def octets (bytes : Nat → List UInt8) (ids : List Nat) : List UInt8 := ids.flatMap bytes

theorem octets_append (bytes : Nat → List UInt8) (xs ys : List Nat) :
    octets bytes (xs ++ ys) = octets bytes xs ++ octets bytes ys :=
  List.flatMap_append

theorem octets_mono (bytes : Nat → List UInt8) {xs ys : List Nat} (h : xs <+: ys) :
    octets bytes xs <+: octets bytes ys := by
  obtain ⟨zs, rfl⟩ := h
  exact ⟨_, (octets_append bytes xs zs).symm⟩

/-- A status behind the seed: the ids of `told` are in `decoded_text`, those of `held` are not, and `text` was
sent of them. -/
structure Cursor (bytes : Nat → List UInt8) (seed told held : List Nat) (s : DecodeStatus) (text : Text) : Prop where
  decodeIds : s.decodeIds = seed ++ told ++ held
  readOffset : s.readOffset = (seed ++ told).length
  surrOffset : s.surrOffset ≤ s.readOffset
  window : s.surrOffset = 0 ∧ told = [] ∨
    Utf8.after none (octets bytes ((seed ++ told).drop s.surrOffset)) = none
  decodedText : s.decodedText = Utf8.emitted none (octets bytes told)
  complete : Utf8.after none (octets bytes told) = none
  sentOffset : s.sentOffset = text.length
  sent : text <+: Utf8.emitted none (octets bytes (told ++ held))

namespace Cursor

variable {bytes : Nat → List UInt8} {seed told held : List Nat} {s : DecodeStatus} {text : Text}

theorem start (bytes : Nat → List UInt8) (seed : List Nat) :
    Cursor bytes seed [] [] ⟨[], seed, 0, seed.length, 0⟩ [] where
  decodeIds := by simp
  readOffset := by simp
  surrOffset := Nat.zero_le _
  window := Or.inl ⟨rfl, rfl⟩
  decodedText := rfl
  complete := rfl
  sentOffset := rfl
  sent := List.nil_prefix

theorem add (h : Cursor bytes seed told held s text) (newIds : List Nat) :
    Cursor bytes seed told (held ++ newIds) { s with decodeIds := s.decodeIds ++ newIds } text :=
  { h with
    decodeIds := by rw [h.decodeIds, List.append_assoc]
    sent := h.sent.trans (Utf8.emitted_mono (octets_mono bytes ⟨newIds, by rw [List.append_assoc]⟩)) }

theorem surrIds (h : Cursor bytes seed told held s text) :
    (s.decodeIds.take s.readOffset).drop s.surrOffset = (seed ++ told).drop s.surrOffset := by
  rw [h.decodeIds, h.readOffset, List.take_left]

theorem readIds (h : Cursor bytes seed told held s text) :
    s.decodeIds.drop s.surrOffset = (seed ++ told).drop s.surrOffset ++ held := by
  rw [h.decodeIds, List.drop_append_of_le_length]
  rw [← h.readOffset]
  exact h.surrOffset

/-- The text that a window adds is the text of the ids that are held back. -/
theorem newText (h : Cursor bytes seed told held s text) {kept : List Nat}
    (hseed : ¬ Utf8.Continues (octets bytes seed) (octets bytes (told ++ kept))) :
    (Utf8.decode (octets bytes ((seed ++ told).drop s.surrOffset ++ kept))).drop
        (Utf8.decode (octets bytes ((seed ++ told).drop s.surrOffset))).length =
      Utf8.decode (octets bytes kept) := by
  have hsplit : Utf8.decode (octets bytes ((seed ++ told).drop s.surrOffset ++ kept)) =
      Utf8.decode (octets bytes ((seed ++ told).drop s.surrOffset)) ++ Utf8.decode (octets bytes kept) := by
    rw [octets_append]
    rcases h.window with ⟨hzero, rfl⟩ | hcomplete
    · rw [hzero, List.append_nil, List.drop_zero]
      exact Utf8.decode_append_of_not_continues hseed
    · exact Utf8.decode_append_complete hcomplete _
  rw [hsplit, List.drop_left]

/-- The text of the ids, from `decoded_text` and the ids that are held back. -/
theorem decode_told (h : Cursor bytes seed told held s text) (kept : List Nat) :
    Utf8.decode (octets bytes (told ++ kept)) = s.decodedText ++ Utf8.decode (octets bytes kept) := by
  rw [octets_append, Utf8.decode_append_complete h.complete, h.decodedText, Utf8.decode_of_complete h.complete]

/-- A streaming step with new text that is complete. -/
theorem commit (h : Cursor bytes seed told held s text) (hheld : Utf8.after none (octets bytes held) = none) :
    Cursor bytes seed (told ++ held) []
      { s with
        decodedText := s.decodedText ++ Utf8.decode (octets bytes held)
        surrOffset := s.readOffset
        readOffset := s.decodeIds.length
        sentOffset := (s.decodedText ++ Utf8.decode (octets bytes held)).length }
      (text ++ (s.decodedText ++ Utf8.decode (octets bytes held)).drop s.sentOffset) := by
  have htold : Utf8.after none (octets bytes (told ++ held)) = none := by
    rw [octets_append, Utf8.after_append, h.complete, hheld]
  have htext : s.decodedText ++ Utf8.decode (octets bytes held) =
      Utf8.emitted none (octets bytes (told ++ held)) := by
    rw [← h.decode_told, Utf8.decode_of_complete htold]
  have hsent : text ++ (s.decodedText ++ Utf8.decode (octets bytes held)).drop s.sentOffset =
      s.decodedText ++ Utf8.decode (octets bytes held) := by
    obtain ⟨rest, hrest⟩ := h.sent
    rw [htext, ← hrest, h.sentOffset, List.drop_left]
  exact {
    decodeIds := by rw [h.decodeIds, List.append_nil, List.append_assoc]
    readOffset := by rw [h.decodeIds, List.append_assoc]
    surrOffset := by rw [h.decodeIds, h.readOffset]; exact (List.prefix_append _ _).length_le
    window := by
      refine Or.inr ?_
      rw [h.readOffset, ← List.append_assoc, List.drop_left]
      exact hheld
    decodedText := htext
    complete := htold
    sentOffset := by rw [hsent]
    sent := by rw [hsent, htext, List.append_nil] }

/-- A streaming step with new text that is held back, from which only what is printable is sent. -/
theorem hold (h : Cursor bytes seed told held s text)
    (hheld : Utf8.decode (octets bytes held) = [] ∨
      (Utf8.decode (octets bytes held)).getLast? = some Utf8.replacement)
    (hsent : s.sentOffset ≤ (s.decodedText ++ findPrintableText (Utf8.decode (octets bytes held))).length) :
    Cursor bytes seed told held
      { s with sentOffset := (s.decodedText ++ findPrintableText (Utf8.decode (octets bytes held))).length }
      (text ++ (s.decodedText ++ findPrintableText (Utf8.decode (octets bytes held))).drop s.sentOffset) := by
  have hshown : s.decodedText ++ findPrintableText (Utf8.decode (octets bytes held)) <+:
      Utf8.emitted none (octets bytes (told ++ held)) := by
    rw [octets_append, Utf8.emitted_append, h.complete, h.decodedText]
    exact (List.prefix_append_right_inj _).mpr (printable_prefix_emitted hheld)
  have htext : text ++ (s.decodedText ++ findPrintableText (Utf8.decode (octets bytes held))).drop s.sentOffset =
      s.decodedText ++ findPrintableText (Utf8.decode (octets bytes held)) := by
    obtain ⟨rest, hrest⟩ := List.prefix_of_prefix_length_le h.sent hshown (h.sentOffset ▸ hsent)
    rw [← hrest, h.sentOffset, List.drop_left]
  exact { h with
    sentOffset := by rw [htext]
    sent := by rw [htext]; exact hshown }

/-- A streaming step. -/
theorem increment_stream (h : Cursor bytes seed told held s text)
    (hseed : ¬ Utf8.Continues (octets bytes seed) (octets bytes (told ++ held)))
    (hsent : let newText := Utf8.decode (octets bytes held)
      newText = [] ∨ newText.getLast? = some Utf8.replacement →
        s.sentOffset ≤ (s.decodedText ++ findPrintableText newText).length) :
    let sent := increment s none (Utf8.decode (octets bytes ((seed ++ told).drop s.surrOffset)))
      (Utf8.decode (octets bytes ((seed ++ told).drop s.surrOffset ++ held)))
    ∃ told' held', told' ++ held' = told ++ held ∧ Cursor bytes seed told' held' sent.1 (text ++ sent.2) := by
  simp only [increment, h.newText hseed, Option.isNone_none, if_true]
  by_cases hnew : 0 < (Utf8.decode (octets bytes held)).length ∧
      (Utf8.decode (octets bytes held)).getLast? ≠ some (Char.ofNat 0xFFFD)
  · rw [if_pos hnew]
    refine ⟨told ++ held, [], List.append_nil _, ?_⟩
    have hcommit := h.commit (Utf8.complete_of_getLast hnew.2)
    simpa only [List.append_nil] using hcommit
  · rw [if_neg hnew]
    have hheld : Utf8.decode (octets bytes held) = [] ∨
        (Utf8.decode (octets bytes held)).getLast? = some Utf8.replacement := by
      rcases not_and_or.mp hnew with hzero | hlast
      · exact Or.inl (List.length_eq_zero_iff.mp (Nat.eq_zero_of_not_pos hzero))
      · exact Or.inr (not_not.mp hlast)
    exact ⟨told, held, rfl, h.hold hheld (hsent hheld)⟩

/-- The last step: what was sent is the text of the ids that are kept. -/
theorem increment_finish (h : Cursor bytes seed told held s text) (reason : OutputEnd) {kept : List Nat}
    (hseed : ¬ Utf8.Continues (octets bytes seed) (octets bytes (told ++ kept)))
    (hkept : text <+: Utf8.emitted none (octets bytes (told ++ kept))) :
    text ++ (increment s (some reason) (Utf8.decode (octets bytes ((seed ++ told).drop s.surrOffset)))
      (Utf8.decode (octets bytes ((seed ++ told).drop s.surrOffset ++ kept)))).2 =
      Utf8.decode (octets bytes (told ++ kept)) := by
  have hnone : (some reason).isNone = true ↔ False := by simp
  simp only [increment, h.newText hseed, hnone, if_false]
  obtain ⟨rest, hrest⟩ := hkept.trans (Utf8.emitted_prefix_decode _)
  rw [← h.decode_told, ← hrest, h.sentOffset, List.drop_left]

end Cursor

/-! ## One batch -/

section Batch

variable {m : DetokenizerManager}

/-- A loop over entries with ids of their own, each of which writes its own status: every entry finds the
status that was there before the loop. -/
theorem loop_statuses {ι β : Type} (step : DetokenizerManager × List β → ι → Py (DetokenizerManager × List β))
    (key : ι → Nat) (result : ι → DecodeStatus × β) {entries : List ι} (hnodup : (entries.map key).Nodup)
    (statuses : Nat → Option DecodeStatus) (out : List β)
    (hstep : ∀ x ∈ entries, ∀ (now : Nat → Option DecodeStatus) (out : List β), now (key x) = statuses (key x) →
      step ({ m with decodeStatus := now }, out) x =
        .ok ({ m with decodeStatus := Function.update now (key x) (some (result x).1) }, out ++ [(result x).2])) :
    ∃ after, entries.foldlM step ({ m with decodeStatus := statuses }, out) =
        .ok ({ m with decodeStatus := after }, out ++ entries.map fun x => (result x).2) ∧
      (∀ x ∈ entries, after (key x) = some (result x).1) ∧
      ∀ rid, rid ∉ entries.map key → after rid = statuses rid := by
  induction entries generalizing statuses out with
  | nil => exact ⟨statuses, by rw [List.map_nil, List.append_nil]; rfl, fun _ hx => (by cases hx), fun _ _ => rfl⟩
  | cons x entries ih =>
    rw [List.map_cons, List.nodup_cons] at hnodup
    have hne : ∀ y ∈ entries, key y ≠ key x := fun y hy heq => hnodup.1 (heq ▸ List.mem_map_of_mem hy)
    obtain ⟨after, hrun, hown, hother⟩ := ih hnodup.2
      (Function.update statuses (key x) (some (result x).1)) (out ++ [(result x).2])
      fun y hy now out hnow => hstep y (List.mem_cons_of_mem _ hy) now out
        (by rw [hnow, Function.update_of_ne (hne y hy)])
    refine ⟨after, ?_, ?_, ?_⟩
    · rw [List.foldlM_cons, hstep x List.mem_cons_self statuses out rfl]
      change entries.foldlM step _ = _
      rw [hrun, List.append_assoc]
      rfl
    · intro y hy
      rcases List.mem_cons.mp hy with rfl | hy
      · rw [hother _ hnodup.1, Function.update_self]
      · exact hown y hy
    · intro rid hrid
      rw [List.map_cons, List.mem_cons, not_or] at hrid
      rw [hother rid hrid.2, Function.update_of_ne hrid.1]

/-- What `trim_matched_stop` leaves of a list of ids that has a last one. -/
def trimmed (m : DetokenizerManager) (recv : TokenIdOutput) (output : List Nat) : List Nat :=
  match recv.noStopTrim, recv.finishedReason with
  | false, some (.matchedToken matched) =>
    if matched = 0 ∨ output.getLast? = some 200012 ∧ m.isToolCallParserGptOss = true then output else output.dropLast
  | _, _ => output

theorem trimMatchedStop_eq {recv : TokenIdOutput} {output : List Nat}
    (hne : ∀ matched, recv.finishedReason = some (.matchedToken matched) → output ≠ []) :
    m.trimMatchedStop output recv.finishedReason recv.noStopTrim = .ok (trimmed m recv output) := by
  cases htrim : recv.noStopTrim with
  | true => simp only [trimMatchedStop, trimmed, htrim]
  | false =>
    cases hreason : recv.finishedReason with
    | none => simp only [trimMatchedStop, trimmed, htrim, hreason]
    | some reason =>
      cases reason with
      | length n => simp only [trimMatchedStop, trimmed, htrim, hreason]
      | matchedToken matched =>
        obtain ⟨last, hlast⟩ := Option.ne_none_iff_exists'.mp
          (mt List.getLast?_eq_none_iff.mp (hne matched hreason))
        simp only [trimMatchedStop, trimmed, htrim, hreason, hlast, Option.some.injEq]
        split_ifs <;> first | rfl | tauto

/-- The ids of a request's window in a batch, before they are trimmed. -/
def windowOf (m : DetokenizerManager) (recv : TokenIdOutput) : List Nat :=
  (m.statusOf recv).decodeIds.drop (m.statusOf recv).surrOffset

def surrOf (m : DetokenizerManager) (recv : TokenIdOutput) : List Nat :=
  ((m.statusOf recv).decodeIds.take (m.statusOf recv).readOffset).drop (m.statusOf recv).surrOffset

/-- The flags that an entry of a batch is decoded with. -/
def flagsOf (m : DetokenizerManager) (recvObj : List TokenIdOutput) (recv : TokenIdOutput) : DecodeFlags :=
  if m.disableTokenizerBatchDecode then recv.flags else (recvObj.head?.map TokenIdOutput.flags).getD recv.flags

theorem decodeFlags_eq {recvObj : List TokenIdOutput} (hne : recvObj ≠ []) :
    m.decodeFlags recvObj = .ok (recvObj.map (flagsOf m recvObj)) := by
  unfold decodeFlags
  cases recvObj with
  | nil => exact absurd rfl hne
  | cons first recvs =>
    cases hdisable : m.disableTokenizerBatchDecode with
    | true =>
      rw [if_pos rfl]
      exact congrArg Except.ok (List.map_congr_left fun recv _ => by rw [flagsOf, hdisable, if_pos rfl])
    | false =>
      rw [if_neg Bool.false_ne_true]
      refine congrArg Except.ok (List.map_congr_left fun recv _ => ?_)
      rw [flagsOf, hdisable, if_neg Bool.false_ne_true]
      rfl

/-- What a batch makes of an entry: the status that it leaves, and the text that it sends. -/
def handled (m : DetokenizerManager) (recvObj : List TokenIdOutput) (recv : TokenIdOutput) : DecodeStatus × Text :=
  increment (m.statusOf recv) recv.finishedReason (m.decode (flagsOf m recvObj recv) (surrOf m recv))
    (m.decode (flagsOf m recvObj recv) (trimmed m recv (windowOf m recv)))

theorem handleBatchTokenIdOut_eq {recvObj : List TokenIdOutput} (hne : recvObj ≠ [])
    (hnodup : (recvObj.map TokenIdOutput.rid).Nodup)
    (hwindow : ∀ recv ∈ recvObj, ∀ matched, recv.finishedReason = some (.matchedToken matched) →
      windowOf m recv ≠ []) :
    ∃ after, m.handleBatchTokenIdOut recvObj =
        .ok ({ m with decodeStatus := after }, recvObj.map fun recv => (handled m recvObj recv).2) ∧
      (∀ recv ∈ recvObj, after recv.rid = some (handled m recvObj recv).1) ∧
      ∀ rid, rid ∉ recvObj.map TokenIdOutput.rid → after rid = m.decodeStatus rid := by
  obtain ⟨collected, hcollect, hown, hother⟩ := loop_statuses (m := m) collect TokenIdOutput.rid
    (fun recv => (m.statusOf recv, surrOf m recv, trimmed m recv (windowOf m recv))) hnodup m.decodeStatus [] (by
      intro recv hrecv now out hnow
      have hstatus : DetokenizerManager.statusOf { m with decodeStatus := now } recv = m.statusOf recv := by
        simp only [statusOf, hnow]
      have htrim : m.trimMatchedStop ((m.statusOf recv).decodeIds.drop (m.statusOf recv).surrOffset)
          recv.finishedReason recv.noStopTrim = .ok (trimmed m recv (windowOf m recv)) :=
        trimMatchedStop_eq (hwindow recv hrecv)
      simp only [collect, hstatus]
      change (m.trimMatchedStop _ _ _ >>= _) = _
      rw [htrim]
      rfl)
  -- the texts of an entry are decoded with its flags
  let texts : TokenIdOutput → Text × Text := fun recv =>
    (m.decode (flagsOf m recvObj recv) (surrOf m recv),
      m.decode (flagsOf m recvObj recv) (trimmed m recv (windowOf m recv)))
  have hflags : DetokenizerManager.decodeFlags { m with decodeStatus := collected } recvObj =
      .ok (recvObj.map (flagsOf m recvObj)) := decodeFlags_eq (m := m) hne
  have htexts : List.zipWith (fun flags (window : List Nat × List Nat) =>
      (m.decode flags window.1, m.decode flags window.2)) (recvObj.map (flagsOf m recvObj))
      (recvObj.map fun recv => (surrOf m recv, trimmed m recv (windowOf m recv))) = recvObj.map texts := by
    rw [List.zipWith_map, List.zipWith_self]
  have hzip : recvObj.zip (recvObj.map texts) = recvObj.map fun recv => (recv, texts recv) := by
    rw [← List.map_id recvObj, List.map_map, List.zip_map', List.map_id]
    rfl
  have hkeys : (recvObj.map fun recv => (recv, texts recv)).map (fun entry => entry.1.rid) =
      recvObj.map TokenIdOutput.rid := by
    rw [List.map_map]
    rfl
  have hentries : ((recvObj.map fun recv => (recv, texts recv)).map fun entry => entry.1.rid).Nodup :=
    hkeys ▸ hnodup
  obtain ⟨after, hemit, hafter, hrest⟩ := loop_statuses (m := m) emit (fun entry => entry.1.rid)
    (fun entry => increment (m.statusOf entry.1) entry.1.finishedReason entry.2.1 entry.2.2)
    hentries collected [] (by
      intro entry hentry now out hnow
      obtain ⟨recv, hrecv, rfl⟩ := List.mem_map.mp hentry
      have hstatus : now recv.rid = some (m.statusOf recv) := hnow.trans (hown recv hrecv)
      simp only [emit, hstatus])
  refine ⟨after, ?_, fun recv hrecv => ?_, fun rid hrid => ?_⟩
  · change (recvObj.foldlM collect ({ m with decodeStatus := m.decodeStatus }, []) >>= _) = _
    rw [hcollect]
    change (DetokenizerManager.decodeFlags { m with decodeStatus := collected } recvObj >>= _) = _
    rw [hflags]
    change (recvObj.zip (List.zipWith (fun flags (window : List Nat × List Nat) =>
      (m.decode flags window.1, m.decode flags window.2)) (recvObj.map (flagsOf m recvObj))
      (recvObj.map fun recv => (surrOf m recv, trimmed m recv (windowOf m recv))))).foldlM emit _ = _
    rw [htexts, hzip, hemit, List.map_map]
    rfl
  · exact hafter (recv, texts recv) (List.mem_map_of_mem hrecv)
  · rw [hrest rid (hkeys ▸ hrid), hother rid hrid]

end Batch

/-- What a batch does for a part. -/
structure PartSent (w w' : TextService) (recvObj : List TokenIdOutput) (part : OutputPart) (req : StreamedReq)
    (recv : TokenIdOutput) : Prop where
  reqs : w'.reqs part.rid = some req
  status : w'.manager.decodeStatus part.rid = some (handled w.manager recvObj recv).1
  texts : w'.texts part.rid = w.texts part.rid ++ (handled w.manager recvObj recv).2

/-- The requests of a batch are apart from each other, and run. A matched stop token is the last one. -/
structure Sendable (w : TextService) (parts : List OutputPart) : Prop where
  nonempty : parts ≠ []
  nodup : (parts.map OutputPart.rid).Nodup
  running : ∀ part ∈ parts, ∃ req, w.reqs part.rid = some req ∧ req.finishedReason = none
  stop : ∀ part ∈ parts, ∀ matched, part.ended = some (.matchedToken matched) → part.newIds.getLast? = some matched

/-- A request with the ids of its part, and what is sent of it. -/
def streamedWith (req : StreamedReq) (part : OutputPart) : StreamedReq × TokenIdOutput :=
  { req with outputIds := req.outputIds ++ part.newIds, finishedReason := part.ended }.streamOutput part.rid

@[simp] theorem streamedWith_rid (req : StreamedReq) (part : OutputPart) : (streamedWith req part).2.rid = part.rid :=
  rfl

theorem initIncrementalDetokenize_same (req : StreamedReq) :
    req.initIncrementalDetokenize.1.finishedReason = req.finishedReason ∧
      req.initIncrementalDetokenize.1.flags = req.flags := by
  unfold StreamedReq.initIncrementalDetokenize
  split <;> exact ⟨rfl, rfl⟩

@[simp] theorem streamedWith_finishedReason (req : StreamedReq) (part : OutputPart) :
    (streamedWith req part).2.finishedReason = part.ended :=
  (initIncrementalDetokenize_same _).1

@[simp] theorem streamedWith_flags (req : StreamedReq) (part : OutputPart) :
    (streamedWith req part).2.flags = req.flags :=
  (initIncrementalDetokenize_same _).2

theorem mapM_streamPart {w : TextService} {parts : List OutputPart} {req : Nat → StreamedReq}
    (h : ∀ part ∈ parts, w.reqs part.rid = some (req part.rid)) :
    parts.mapM w.streamPart = some (parts.map fun part => streamedWith (req part.rid) part) := by
  induction parts with
  | nil => rfl
  | cons part parts ih =>
    have hpart : w.streamPart part = some (streamedWith (req part.rid) part) := by
      rw [TextService.streamPart, h part List.mem_cons_self]
      rfl
    rw [List.mapM_cons, hpart, ih fun part' hpart' => h part' (List.mem_cons_of_mem _ hpart')]
    rfl

/-- A batch is handled, and each of its parts by itself. -/
theorem send_eq {w : TextService} {parts : List OutputPart} (h : Sendable w parts) {req : Nat → StreamedReq}
    (hreq : ∀ part ∈ parts, w.reqs part.rid = some (req part.rid))
    (hwindow : ∀ part ∈ parts, ∀ matched, part.ended = some (.matchedToken matched) →
      windowOf w.manager (streamedWith (req part.rid) part).2 ≠ []) :
    ∃ w' after, w.send parts = some w' ∧ w'.manager = { w.manager with decodeStatus := after } ∧
      (∀ part ∈ parts, PartSent w w' (parts.map fun part => (streamedWith (req part.rid) part).2) part
        (streamedWith (req part.rid) part).1 (streamedWith (req part.rid) part).2) ∧
      ∀ rid, rid ∉ parts.map OutputPart.rid → w'.reqs rid = w.reqs rid ∧
        w'.manager.decodeStatus rid = w.manager.decodeStatus rid ∧ w'.texts rid = w.texts rid := by
  let streamed : OutputPart → StreamedReq × TokenIdOutput := fun part => streamedWith (req part.rid) part
  let recvObj : List TokenIdOutput := parts.map fun part => (streamed part).2
  have hkeys : recvObj.map TokenIdOutput.rid = parts.map OutputPart.rid := by
    rw [List.map_map]
    rfl
  have hne : recvObj ≠ [] := mt List.map_eq_nil_iff.mp h.nonempty
  obtain ⟨after, hhandle, hown, hother⟩ := handleBatchTokenIdOut_eq (m := w.manager) hne (hkeys ▸ h.nodup) (by
    intro recv hrecv matched hmatched
    obtain ⟨part, hpart, rfl⟩ := List.mem_map.mp hrecv
    exact hwindow part hpart matched (streamedWith_finishedReason (req part.rid) part ▸ hmatched))
  have hsnd : (parts.map streamed).map Prod.snd = recvObj := List.map_map
  -- where the request and the text of an id are looked up
  have hzip : (parts.map streamed).zip (recvObj.map fun recv => (handled w.manager recvObj recv).2) =
      parts.map fun part => (streamed part, (handled w.manager recvObj (streamed part).2).2) := by
    rw [List.map_map, List.zip_map']
    rfl
  have hfind : ∀ rid, ((parts.map streamed).find? fun part => part.2.rid == rid) =
      (parts.find? fun part => part.rid == rid).map streamed := fun rid => List.find?_map
  have hfindText : ∀ rid, ((parts.map fun part =>
      (streamed part, (handled w.manager recvObj (streamed part).2).2)).find? fun part => part.1.2.rid == rid) =
      (parts.find? fun part => part.rid == rid).map
        fun part => (streamed part, (handled w.manager recvObj (streamed part).2).2) := fun rid => List.find?_map
  let w' : TextService := {
    manager := { w.manager with decodeStatus := after }
    reqs := fun rid => (((parts.map streamed).find? fun part => part.2.rid == rid).map Prod.fst).or (w.reqs rid)
    texts := fun rid => w.texts rid ++
      ((((parts.map streamed).zip (recvObj.map fun recv => (handled w.manager recvObj recv).2)).find? fun part =>
        part.1.2.rid == rid).map Prod.snd).getD [] }
  refine ⟨w', after, ?_, rfl, fun part hpart => ⟨?_, ?_, ?_⟩, fun rid hrid => ⟨?_, ?_, ?_⟩⟩
  · rw [TextService.send, mapM_streamPart hreq]
    simp only [Option.bind_eq_bind, Option.bind_some]
    rw [hsnd, hhandle]
    rfl
  · simp only [w', hfind, Library.find?_key h.nodup hpart]
    rfl
  · exact hown _ (List.mem_map_of_mem hpart)
  · simp only [w', hzip, hfindText, Library.find?_key h.nodup hpart]
    rfl
  · simp only [w', hfind, Library.find?_key_eq_none.mpr hrid]
    rfl
  · exact hother rid (hkeys ▸ hrid)
  · simp only [w', hzip, hfindText, Library.find?_key_eq_none.mpr hrid]
    exact List.append_nil _

/-! ## Every run -/

/-- The prompt ids that the first window begins with. -/
def seedOf (prompt : List Nat) : List Nat := prompt.drop (prompt.length - initIncrementalDetokenizationOffset)

/-- The output ids without a matched stop token, unless `no_stop_trim`. -/
def idsKept (ids : List Nat) (finishedReason : Option OutputEnd) (noStopTrim : Bool) : List Nat :=
  match noStopTrim, finishedReason with
  | false, some (.matchedToken _) => ids.dropLast
  | _, _ => ids

/-- A request after a part. -/
def sentReq (prompt ids : List Nat) (ended : Option OutputEnd) (flags : DecodeFlags) (noStopTrim : Bool) :
    StreamedReq :=
  ⟨prompt, ids, ended, flags, noStopTrim, [], some (prompt.length - initIncrementalDetokenizationOffset),
    some prompt.length, seedOf prompt ++ ids, ids.length, (seedOf prompt ++ ids).length⟩

theorem streamedWith_new (prompt : List Nat) (flags : DecodeFlags) (noStopTrim : Bool) (part : OutputPart) :
    streamedWith (.new prompt flags noStopTrim) part =
      (sentReq prompt part.newIds part.ended flags noStopTrim,
        ⟨part.rid, part.ended, [], seedOf prompt ++ part.newIds, (seedOf prompt).length, flags, noStopTrim⟩) := by
  rw [seedOf, List.length_drop]
  rfl

theorem streamedWith_sentReq (prompt ids : List Nat) (flags : DecodeFlags) (noStopTrim : Bool) (part : OutputPart) :
    ∃ readOffset, streamedWith (sentReq prompt ids none flags noStopTrim) part =
      (sentReq prompt (ids ++ part.newIds) part.ended flags noStopTrim,
        ⟨part.rid, part.ended, [], part.newIds, readOffset, flags, noStopTrim⟩) := by
  have hids : seedOf prompt ++ ids ++ (ids ++ part.newIds).drop ids.length =
      seedOf prompt ++ (ids ++ part.newIds) := by
    rw [List.drop_left, List.append_assoc]
  have hnew : (seedOf prompt ++ (ids ++ part.newIds)).drop (seedOf prompt ++ ids).length = part.newIds := by
    rw [← List.append_assoc, List.drop_left]
  refine ⟨prompt.length - (prompt.length - initIncrementalDetokenizationOffset), ?_⟩
  simp only [streamedWith, StreamedReq.streamOutput, StreamedReq.initIncrementalDetokenize, sentReq, hids, hnew]

/-- A request, its status and its text. -/
inductive TextStage (bytes : DecodeFlags → Nat → List UInt8) :
    Option StreamedReq → Option DecodeStatus → Text → Prop
  | absent : TextStage bytes none none []
  | arrived (prompt : List Nat) (flags : DecodeFlags) (noStopTrim : Bool) :
      TextStage bytes (some (.new prompt flags noStopTrim)) none []
  | streaming (prompt : List Nat) (flags : DecodeFlags) (noStopTrim : Bool) {told held : List Nat} {s : DecodeStatus}
      {text : Text} : Cursor (bytes flags) (seedOf prompt) told held s text →
      TextStage bytes (some (sentReq prompt (told ++ held) none flags noStopTrim)) (some s) text
  | ended (prompt ids : List Nat) (reason : OutputEnd) (flags : DecodeFlags) (noStopTrim : Bool) {s : DecodeStatus}
      {text : Text} : text = Utf8.decode (octets (bytes flags) (idsKept ids (some reason) noStopTrim)) →
      TextStage bytes (some (sentReq prompt ids (some reason) flags noStopTrim)) (some s) text

/-- The ids of a request's window before a part. -/
def windowBefore (m : DetokenizerManager) (rid : Nat) (req : StreamedReq) : List Nat :=
  match m.decodeStatus rid with
  | none => seedOf req.originInputIdsUnpadded
  | some s => s.decodeIds.drop s.surrOffset

/-- A running request has taken a part, and a cursor stands in front of the new ids. -/
structure TextAdded (bytes : DecodeFlags → Nat → List UInt8) (m : DetokenizerManager) (req : StreamedReq)
    (part : OutputPart) (text : Text) (told held : List Nat) : Prop where
  sent : (streamedWith req part).1 =
    sentReq req.originInputIdsUnpadded (told ++ (held ++ part.newIds)) part.ended req.flags req.noStopTrim
  noStopTrim : (streamedWith req part).2.noStopTrim = req.noStopTrim
  outputIds : req.outputIds = told ++ held
  cursor : Cursor (bytes req.flags) (seedOf req.originInputIdsUnpadded) told (held ++ part.newIds)
    (m.statusOf (streamedWith req part).2) text
  before : text <+: Utf8.emitted none (octets (bytes req.flags) (told ++ held))
  window : windowOf m (streamedWith req part).2 = windowBefore m part.rid req ++ part.newIds
  offset : (m.statusOf (streamedWith req part).2).sentOffset = 0 ∨ ∃ s ∈ m.decodeStatus part.rid,
    s.sentOffset = (m.statusOf (streamedWith req part).2).sentOffset ∧
    s.decodedText = (m.statusOf (streamedWith req part).2).decodedText ∧ s.decodeIds.drop s.readOffset = held

theorem TextStage.add {bytes : DecodeFlags → Nat → List UInt8} {m : DetokenizerManager} {req : StreamedReq}
    {part : OutputPart} {text : Text}
    (h : TextStage bytes (some req) (m.decodeStatus part.rid) text) (hrunning : req.finishedReason = none) :
    ∃ told held, TextAdded bytes m req part text told held := by
  generalize hstatus : m.decodeStatus part.rid = status at h
  cases h with
  | arrived prompt flags noStopTrim =>
    have hs : m.statusOf (streamedWith (.new prompt flags noStopTrim) part).2 =
        ⟨[], seedOf prompt ++ part.newIds, 0, (seedOf prompt).length, 0⟩ := by
      rw [streamedWith_new, statusOf, hstatus]
    exact ⟨[], [], {
      sent := by
        rw [streamedWith_new]
        rfl
      noStopTrim := by rw [streamedWith_new]; rfl
      outputIds := rfl
      cursor := by
        rw [hs]
        exact (Cursor.start _ _).add part.newIds
      before := List.nil_prefix
      window := by
        rw [windowOf, hs, windowBefore, hstatus]
        rfl
      offset := by
        rw [hs]
        exact Or.inl rfl }⟩
  | @streaming prompt flags noStopTrim told held s _ hcursor =>
    obtain ⟨readOffset, hsent⟩ := streamedWith_sentReq prompt (told ++ held) flags noStopTrim part
    have hs : m.statusOf (streamedWith (sentReq prompt (told ++ held) none flags noStopTrim) part).2 =
        { s with decodeIds := s.decodeIds ++ part.newIds } := by
      rw [hsent, statusOf, hstatus]
    exact ⟨told, held, {
      sent := by
        rw [hsent, List.append_assoc]
        rfl
      noStopTrim := by rw [hsent]; rfl
      outputIds := rfl
      cursor := by
        rw [hs]
        exact hcursor.add part.newIds
      before := hcursor.sent
      window := by
        rw [windowOf, hs, windowBefore, hstatus]
        refine List.drop_append_of_le_length (hcursor.surrOffset.trans ?_)
        rw [hcursor.readOffset, hcursor.decodeIds]
        exact (List.prefix_append _ _).length_le
      offset := by
        rw [hs]
        refine Or.inr ⟨s, hstatus, rfl, rfl, ?_⟩
        rw [hcursor.decodeIds, hcursor.readOffset, List.drop_left] }⟩
  | ended => cases hrunning

/-- The tokenizer decodes the octets of the ids. -/
def DecodesOctets (bytes : DecodeFlags → Nat → List UInt8) (m : DetokenizerManager) : Prop :=
  ∀ flags ids, m.decode flags ids = Utf8.decode (octets (bytes flags) ids)

/-- The flags that a request's part is decoded with. -/
def entryFlags (w : TextService) (parts : List OutputPart) (req : StreamedReq) : DecodeFlags :=
  if w.manager.disableTokenizerBatchDecode then req.flags
  else ((parts.head?.bind fun first => w.reqs first.rid).map StreamedReq.flags).getD req.flags

/-- A part of a batch that is decoded as it would be by itself. The flags of the batch give the ids of the
window the octets that its own flags give them; a stop token that is not trimmed is skipped; no character of
the prompt goes on in the output; and `sent_offset` does not go back when text is held back. -/
structure SafePart (bytes : DecodeFlags → Nat → List UInt8) (w : TextService) (parts : List OutputPart)
    (part : OutputPart) (req : StreamedReq) : Prop where
  flags : ∀ id ∈ windowBefore w.manager part.rid req ++ part.newIds,
    bytes (entryFlags w parts req) id = bytes req.flags id
  stop : ∀ matched, part.ended = some (.matchedToken matched) → req.noStopTrim = false →
    matched = 0 ∨ matched = 200012 ∧ w.manager.isToolCallParserGptOss = true → bytes req.flags matched = []
  seed : ¬ Utf8.Continues (octets (bytes req.flags) (seedOf req.originInputIdsUnpadded))
    (octets (bytes req.flags) (req.outputIds ++ part.newIds))
  offset : part.ended = none → ∀ s ∈ w.manager.decodeStatus part.rid,
    let newText := w.manager.decode req.flags (s.decodeIds.drop s.readOffset ++ part.newIds)
    newText = [] ∨ newText.getLast? = some Utf8.replacement →
      s.sentOffset ≤ (s.decodedText ++ findPrintableText newText).length

theorem decode_congr {bytes : DecodeFlags → Nat → List UInt8} {m : DetokenizerManager}
    (hdecode : DecodesOctets bytes m) {flags own : DecodeFlags} {ids : List Nat}
    (h : ∀ id ∈ ids, bytes flags id = bytes own id) :
    m.decode flags ids = Utf8.decode (octets (bytes own) ids) := by
  rw [hdecode, octets, octets, List.flatMap_congr h]

section Part

variable {bytes : DecodeFlags → Nat → List UInt8} {m : DetokenizerManager} {recv : TokenIdOutput}

theorem trimmed_of_not_matched
    (h : recv.noStopTrim = true ∨ ∀ matched, recv.finishedReason ≠ some (.matchedToken matched))
    (output : List Nat) : trimmed m recv output = output := by
  unfold trimmed
  split
  next matched htrim hreason =>
    rcases h with h | h
    · rw [h] at htrim
      cases htrim
    · exact absurd hreason (h matched)
  next => rfl

theorem idsKept_of_not_matched {ids : List Nat} {finishedReason : Option OutputEnd} {noStopTrim : Bool}
    (h : noStopTrim = true ∨ ∀ matched, finishedReason ≠ some (.matchedToken matched)) :
    idsKept ids finishedReason noStopTrim = ids := by
  unfold idsKept
  split
  next matched =>
    rcases h with h | h
    · cases h
    · exact absurd rfl (h matched)
  next => rfl

/-- A window whose last id is the matched token keeps what is in front of it, or the octets of that. -/
theorem trimmed_concat {matched : Nat} (htrim : recv.noStopTrim = false)
    (hreason : recv.finishedReason = some (.matchedToken matched)) (output : List Nat) :
    trimmed m recv (output ++ [matched]) = output ∨
      trimmed m recv (output ++ [matched]) = output ++ [matched] ∧
        (matched = 0 ∨ matched = 200012 ∧ m.isToolCallParserGptOss = true) := by
  simp only [trimmed, htrim, hreason, List.getLast?_concat, Option.some.injEq, List.dropLast_concat]
  split_ifs with h
  · exact Or.inr ⟨rfl, h⟩
  · exact Or.inl rfl

namespace TextAdded

variable {req : StreamedReq} {part : OutputPart} {text : Text} {told held : List Nat}

/-- The ids that the last window keeps give the octets of the ids that the request keeps. -/
theorem kept (h : TextAdded bytes m req part text told held)
    (hstop : ∀ matched, part.ended = some (.matchedToken matched) → part.newIds.getLast? = some matched)
    (hskipped : ∀ matched, part.ended = some (.matchedToken matched) → req.noStopTrim = false →
      matched = 0 ∨ matched = 200012 ∧ m.isToolCallParserGptOss = true → bytes req.flags matched = []) :
    ∃ kept, trimmed m (streamedWith req part).2 (windowOf m (streamedWith req part).2) =
        (seedOf req.originInputIdsUnpadded ++ told).drop (m.statusOf (streamedWith req part).2).surrOffset ++ kept ∧
      held <+: kept ∧ kept <+: held ++ part.newIds ∧
      octets (bytes req.flags) (told ++ kept) =
        octets (bytes req.flags) (idsKept (told ++ (held ++ part.newIds)) part.ended req.noStopTrim) := by
  have hwindow : windowOf m (streamedWith req part).2 = (seedOf req.originInputIdsUnpadded ++ told).drop
      (m.statusOf (streamedWith req part).2).surrOffset ++ (held ++ part.newIds) := h.cursor.readIds
  by_cases hplain : req.noStopTrim = true ∨ ∀ matched, part.ended ≠ some (.matchedToken matched)
  · refine ⟨held ++ part.newIds, ?_, List.prefix_append _ _, List.prefix_rfl, ?_⟩
    · rw [trimmed_of_not_matched (by rwa [h.noStopTrim, streamedWith_finishedReason]), hwindow]
    · rw [idsKept_of_not_matched hplain]
  · rw [not_or, Bool.not_eq_true] at hplain
    obtain ⟨htrim, hmatched⟩ := hplain
    push Not at hmatched
    obtain ⟨matched, hreason⟩ := hmatched
    obtain ⟨init, hinit⟩ := List.getLast?_eq_some_iff.mp (hstop matched hreason)
    have hids : told ++ (held ++ part.newIds) = told ++ (held ++ init) ++ [matched] := by
      rw [hinit, List.append_assoc, List.append_assoc]
    have hkept : idsKept (told ++ (held ++ part.newIds)) part.ended req.noStopTrim = told ++ (held ++ init) := by
      simp only [idsKept, htrim, hreason, hids, List.dropLast_concat]
    have hlast : windowOf m (streamedWith req part).2 = (seedOf req.originInputIdsUnpadded ++ told).drop
        (m.statusOf (streamedWith req part).2).surrOffset ++ (held ++ init) ++ [matched] := by
      rw [hwindow, hinit, List.append_assoc, List.append_assoc]
    rw [hlast, hkept]
    rcases trimmed_concat (m := m) (h.noStopTrim.trans htrim) ((streamedWith_finishedReason req part).trans hreason) _
      with hout | ⟨hin, hspared⟩
    · refine ⟨held ++ init, hout, List.prefix_append _ _, ?_, rfl⟩
      rw [hinit, ← List.append_assoc]
      exact List.prefix_append _ _
    · refine ⟨held ++ part.newIds, ?_, List.prefix_append _ _, List.prefix_rfl, ?_⟩
      · rw [hin, hinit, List.append_assoc, List.append_assoc]
      · -- the token is left, and has no octets
        rw [hids, octets_append]
        have hnone : octets (bytes req.flags) [matched] = [] := by
          rw [octets, List.flatMap_singleton]
          exact hskipped matched hreason htrim hspared
        rw [hnone, List.append_nil]

/-- A part is handled: its text goes on as the text of the request's ids. -/
theorem handled (h : TextAdded bytes m req part text told held) (hdecode : DecodesOctets bytes m)
    {recvObj : List TokenIdOutput}
    (hflags : ∀ id ∈ windowOf m (streamedWith req part).2,
      bytes (flagsOf m recvObj (streamedWith req part).2) id = bytes req.flags id)
    (hstop : ∀ matched, part.ended = some (.matchedToken matched) → part.newIds.getLast? = some matched)
    (hskipped : ∀ matched, part.ended = some (.matchedToken matched) → req.noStopTrim = false →
      matched = 0 ∨ matched = 200012 ∧ m.isToolCallParserGptOss = true → bytes req.flags matched = [])
    (hseed : ¬ Utf8.Continues (octets (bytes req.flags) (seedOf req.originInputIdsUnpadded))
      (octets (bytes req.flags) (req.outputIds ++ part.newIds)))
    (hoffset : part.ended = none → ∀ s ∈ m.decodeStatus part.rid,
      let newText := m.decode req.flags (s.decodeIds.drop s.readOffset ++ part.newIds)
      newText = [] ∨ newText.getLast? = some Utf8.replacement →
        s.sentOffset ≤ (s.decodedText ++ findPrintableText newText).length) :
    TextStage bytes (some (streamedWith req part).1) (some (handled m recvObj (streamedWith req part).2).1)
      (text ++ (handled m recvObj (streamedWith req part).2).2) := by
  have hcursor := h.cursor
  have hwindow : windowOf m (streamedWith req part).2 = (seedOf req.originInputIdsUnpadded ++ told).drop
      (m.statusOf (streamedWith req part).2).surrOffset ++ (held ++ part.newIds) := hcursor.readIds
  have hsurr : m.decode (flagsOf m recvObj (streamedWith req part).2) (surrOf m (streamedWith req part).2) =
      Utf8.decode (octets (bytes req.flags) ((seedOf req.originInputIdsUnpadded ++ told).drop
        (m.statusOf (streamedWith req part).2).surrOffset)) := by
    rw [surrOf, hcursor.surrIds]
    exact decode_congr hdecode fun id hid => hflags id (hwindow ▸ List.mem_append_left _ hid)
  have hread : ∀ kept, kept <+: held ++ part.newIds →
      m.decode (flagsOf m recvObj (streamedWith req part).2) ((seedOf req.originInputIdsUnpadded ++ told).drop
        (m.statusOf (streamedWith req part).2).surrOffset ++ kept) =
      Utf8.decode (octets (bytes req.flags) ((seedOf req.originInputIdsUnpadded ++ told).drop
        (m.statusOf (streamedWith req part).2).surrOffset ++ kept)) := by
    intro kept hkept
    refine decode_congr hdecode fun id hid => hflags id (hwindow ▸ ?_)
    exact ((List.prefix_append_right_inj _).mpr hkept).subset hid
  have hids : ∀ kept, kept <+: held ++ part.newIds →
      ¬ Utf8.Continues (octets (bytes req.flags) (seedOf req.originInputIdsUnpadded))
        (octets (bytes req.flags) (told ++ kept)) := by
    intro kept hkept hcontinues
    refine hseed ?_
    obtain ⟨rest, hrest⟩ := octets_mono (bytes req.flags) ((List.prefix_append_right_inj told).mpr hkept)
    rw [h.outputIds, List.append_assoc, ← hrest]
    exact hcontinues.append_right
  cases hended : part.ended with
  | none =>
    have htrim : trimmed m (streamedWith req part).2 (windowOf m (streamedWith req part).2) =
        windowOf m (streamedWith req part).2 :=
      trimmed_of_not_matched (Or.inr fun matched => by rw [streamedWith_finishedReason, hended]; exact nofun) _
    obtain ⟨told', held', hsame, hnext⟩ := hcursor.increment_stream (hids _ List.prefix_rfl) (by
      intro newText hheld
      rcases h.offset with hzero | ⟨s, hs, hsent, htext, hpending⟩
      · rw [hzero]
        exact Nat.zero_le _
      · have hsafe := hoffset hended s hs
        have hdecoded : m.decode req.flags (held ++ part.newIds) = newText := hdecode _ _
        simp only [hpending, hdecoded, hsent, htext] at hsafe
        exact hsafe hheld)
    rw [h.sent, hended, ← hsame, Guarantees.handled, streamedWith_finishedReason, hended, htrim, hsurr, hwindow,
      hread _ List.prefix_rfl]
    exact .streaming _ _ _ hnext
  | some reason =>
    obtain ⟨kept, htrim, hheld, hkept, hoctets⟩ := h.kept hstop hskipped
    have hsent : text <+: Utf8.emitted none (octets (bytes req.flags) (told ++ kept)) :=
      h.before.trans (Utf8.emitted_mono (octets_mono _ ((List.prefix_append_right_inj told).mpr hheld)))
    have hfinish := hcursor.increment_finish reason (hids kept hkept) hsent
    rw [h.sent, hended, Guarantees.handled, streamedWith_finishedReason, hended, htrim, hsurr, hread kept hkept]
    exact .ended _ _ _ _ _ (by rw [hfinish, hoctets, hended])

end TextAdded

end Part

/-! ## Batches -/

inductive TextLabel where
  | arrive (rid : Nat) (originInputIdsUnpadded : List Nat) (flags : DecodeFlags) (noStopTrim : Bool)
  | send (parts : List OutputPart)

def TextService.step : TextLabel → TextService → Option TextService
  | .arrive rid prompt flags noStopTrim, w => some (w.arrive rid prompt flags noStopTrim)
  | .send parts, w => w.send parts

def textMachine : Machine TextService TextLabel where
  step := TextService.step

/-- A request arrives once, and the parts of a batch are of requests that run. -/
def WellSent (w : TextService) : TextLabel → Prop
  | .arrive rid _ _ _ => w.reqs rid = none
  | .send parts => Sendable w parts

def SafelySent (bytes : DecodeFlags → Nat → List UInt8) (w : TextService) : TextLabel → Prop
  | .arrive _ _ _ _ => True
  | .send parts => ∀ part ∈ parts, ∀ req ∈ w.reqs part.rid, SafePart bytes w parts part req

/-- Nothing has arrived yet, and the tokenizer decodes octets. -/
structure TextStart (bytes : DecodeFlags → Nat → List UInt8) (w : TextService) : Prop where
  reqs : ∀ rid, w.reqs rid = none
  decodeStatus : ∀ rid, w.manager.decodeStatus rid = none
  texts : ∀ rid, w.texts rid = []
  decode : DecodesOctets bytes w.manager

structure TextInv (bytes : DecodeFlags → Nat → List UInt8) (w : TextService) : Prop where
  stage : ∀ rid, TextStage bytes (w.reqs rid) (w.manager.decodeStatus rid) (w.texts rid)
  decode : DecodesOctets bytes w.manager

namespace TextInv

variable {bytes : DecodeFlags → Nat → List UInt8} {w w' : TextService}

theorem start (h : TextStart bytes w) : TextInv bytes w where
  stage rid := by
    rw [h.reqs, h.decodeStatus, h.texts]
    exact .absent
  decode := h.decode

theorem arrive (h : TextInv bytes w) {rid : Nat} (hnew : w.reqs rid = none) (prompt : List Nat) (flags : DecodeFlags)
    (noStopTrim : Bool) : TextInv bytes (w.arrive rid prompt flags noStopTrim) where
  stage rid' := by
    simp only [TextService.arrive]
    by_cases heq : rid' = rid
    · subst heq
      have habsent := h.stage rid'
      rw [hnew] at habsent
      generalize w.manager.decodeStatus rid' = status at habsent ⊢
      generalize w.texts rid' = text at habsent ⊢
      cases habsent
      rw [Function.update_self]
      exact .arrived prompt flags noStopTrim
    · rw [Function.update_of_ne heq]
      exact h.stage rid'
  decode := h.decode

theorem send (h : TextInv bytes w) {parts : List OutputPart} (hsend : Sendable w parts)
    (hsafe : ∀ part ∈ parts, ∀ req ∈ w.reqs part.rid, SafePart bytes w parts part req) :
    ∃ w', w.send parts = some w' ∧ TextInv bytes w' := by
  let req : Nat → StreamedReq := fun rid => (w.reqs rid).getD (.new [] ⟨true, true⟩ false)
  have hreq : ∀ part ∈ parts, w.reqs part.rid = some (req part.rid) := by
    intro part hpart
    obtain ⟨r, hr, -⟩ := hsend.running part hpart
    simp only [req, hr, Option.getD_some]
  have hadded : ∀ part ∈ parts, ∃ told held,
      TextAdded bytes w.manager (req part.rid) part (w.texts part.rid) told held := by
    intro part hpart
    obtain ⟨r, hr, hrunning⟩ := hsend.running part hpart
    have hstage := h.stage part.rid
    rw [hreq part hpart] at hstage
    rw [hreq part hpart] at hr
    exact hstage.add (Option.some.inj hr ▸ hrunning)
  obtain ⟨w', after, hrun, hmanager, hparts, hothers⟩ := send_eq hsend hreq (by
    intro part hpart matched hmatched hempty
    obtain ⟨told, held, hpartAdded⟩ := hadded part hpart
    rw [hpartAdded.window, List.append_eq_nil_iff] at hempty
    have hlast := hsend.stop part hpart matched hmatched
    rw [hempty.2] at hlast
    cases hlast)
  refine ⟨w', hrun, fun rid => ?_, ?_⟩
  · by_cases hmem : rid ∈ parts.map OutputPart.rid
    · obtain ⟨part, hpart, rfl⟩ := List.mem_map.mp hmem
      obtain ⟨told, held, hpartAdded⟩ := hadded part hpart
      have hpartSafe := hsafe part hpart _ (hreq part hpart)
      have hsent := hparts part hpart
      rw [hsent.reqs, hsent.status, hsent.texts]
      refine hpartAdded.handled h.decode ?_ (hsend.stop part hpart) hpartSafe.stop hpartSafe.seed hpartSafe.offset
      have hflags : flagsOf w.manager (parts.map fun part => (streamedWith (req part.rid) part).2)
          (streamedWith (req part.rid) part).2 = entryFlags w parts (req part.rid) := by
        rw [flagsOf, entryFlags, streamedWith_flags]
        cases hcons : parts with
        | nil => exact absurd hcons hsend.nonempty
        | cons first rest =>
          have hfirst := hreq first (hcons ▸ List.mem_cons_self)
          simp only [List.map_cons, List.head?_cons, Option.map_some, Option.getD_some, Option.bind_some, hfirst,
            streamedWith_flags]
      rw [hpartAdded.window, hflags]
      exact hpartSafe.flags
    · obtain ⟨hr, hs, ht⟩ := hothers rid hmem
      rw [hr, hs, ht]
      exact h.stage rid
  · rw [hmanager]
    exact h.decode

theorem reach
    (h : textMachine.Reach (fun w label => WellSent w label ∧ SafelySent bytes w label) (TextStart bytes) w) :
    TextInv bytes w := by
  refine h.invariant (fun _ => start) fun s s' label hinv hguard hstep => ?_
  cases label with
  | arrive rid prompt flags noStopTrim =>
    cases hstep
    exact hinv.arrive hguard.1 prompt flags noStopTrim
  | send parts =>
    obtain ⟨s'', hsend, hnext⟩ := hinv.send hguard.1 hguard.2
    cases hsend.symm.trans hstep
    exact hnext

end TextInv

/-- What was sent for every request that has ended is the decoding of its ids at once. -/
def OneShotText (bytes : DecodeFlags → Nat → List UInt8) (w : TextService) : Prop :=
  ∀ rid req reason, w.reqs rid = some req → req.finishedReason = some reason →
    w.texts rid = Utf8.decode (octets (bytes req.flags) (idsKept req.outputIds req.finishedReason req.noStopTrim))

/-- In runs of safely sent batches, every request's text is the decoding of its ids under its own flags, and no
batch fails. -/
theorem incremental_text_one_shot {bytes : DecodeFlags → Nat → List UInt8} {w : TextService}
    (h : textMachine.Reach (fun w label => WellSent w label ∧ SafelySent bytes w label) (TextStart bytes) w) :
    OneShotText bytes w ∧
      ∀ label, WellSent w label → SafelySent bytes w label → (textMachine.step label w).isSome = true := by
  have hinv := TextInv.reach h
  refine ⟨fun rid req reason hreq hended => ?_, fun label hsent hsafe => ?_⟩
  · have hstage := hinv.stage rid
    rw [hreq] at hstage
    generalize w.manager.decodeStatus rid = status at hstage
    generalize w.texts rid = text at hstage ⊢
    cases hstage with
    | arrived => cases hended
    | streaming => cases hended
    | ended prompt ids reason flags noStopTrim htext => exact htext
  · cases label with
    | arrive => rfl
    | send parts =>
      obtain ⟨w', hsend, -⟩ := hinv.send hsent hsafe
      change (w.send parts).isSome = true
      rw [hsend]
      rfl

/-- A character over two tokens, and a special token. -/
def pieceBytes (flags : DecodeFlags) : Nat → List UInt8
  | 1 => [0xE5]
  | 2 => [0xA5, 0xBD]
  | 3 => if flags.skipSpecialTokens then [] else [0x3C, 0x73, 0x3E]
  | _ => []

/-- The service before any request, with batch decoding. -/
def pieceService : TextService where
  manager := {
    decode := fun flags ids => Utf8.decode (octets (pieceBytes flags) ids)
    isToolCallParserGptOss := false
    disableTokenizerBatchDecode := false
    decodeStatus := fun _ => none }
  reqs _ := none
  texts _ := []

theorem pieceService_start : TextStart pieceBytes pieceService :=
  ⟨fun _ => rfl, fun _ => rfl, fun _ => rfl, fun _ _ => rfl⟩

def pieceArrived : TextService := pieceService.arrive 0 [] ⟨true, true⟩ false

def firstPiece : OutputPart := ⟨0, [1], none⟩

def pieceHeld : TextService := (pieceArrived.send [firstPiece]).get (by decide +kernel)

def lastPieces : OutputPart := ⟨0, [2, 7], some (.matchedToken 7)⟩

def pieceEnded : TextService := (pieceHeld.send [lastPieces]).get (by decide +kernel)

theorem incremental_text_one_shot_pieces : pieceEnded.texts 0 =
    Utf8.decode (octets (pieceBytes ⟨true, true⟩) (idsKept [1, 2, 7] (some (.matchedToken 7)) false)) := by
  have hfirst : WellSent pieceArrived (.send [firstPiece]) := by
    refine ⟨List.cons_ne_nil _ _, by decide, fun part hpart => ?_, fun part hpart matched hmatched => ?_⟩
    · cases List.mem_singleton.mp hpart
      exact ⟨_, rfl, rfl⟩
    · cases List.mem_singleton.mp hpart
      cases hmatched
  have hfirstSafe : SafelySent pieceBytes pieceArrived (.send [firstPiece]) := by
    intro part hpart req hreq
    cases List.mem_singleton.mp hpart
    cases hreq
    exact ⟨fun _ _ => rfl, nofun, fun ⟨_, hc, _⟩ => (by cases hc), fun _ _ hs => (by cases hs)⟩
  have hlast : WellSent pieceHeld (.send [lastPieces]) := by
    refine ⟨List.cons_ne_nil _ _, by decide, fun part hpart => ?_, fun part hpart matched hmatched => ?_⟩
    · cases List.mem_singleton.mp hpart
      exact ⟨_, rfl, rfl⟩
    · cases List.mem_singleton.mp hpart
      cases hmatched
      rfl
  have hlastSafe : SafelySent pieceBytes pieceHeld (.send [lastPieces]) := by
    intro part hpart req hreq
    cases List.mem_singleton.mp hpart
    have hheld : pieceHeld.reqs 0 = some (sentReq [] [1] none ⟨true, true⟩ false) := rfl
    cases hheld.symm.trans hreq
    refine ⟨fun _ _ => rfl, fun matched hmatched _ hspared => ?_, fun ⟨_, hc, _⟩ => (by cases hc), nofun⟩
    cases hmatched
    rcases hspared with h | ⟨h, -⟩ <;> cases h
  have hnew : WellSent pieceService (.arrive 0 [] ⟨true, true⟩ false) := rfl
  have hheld : textMachine.step (.send [firstPiece]) pieceArrived = some pieceHeld := (Option.some_get _).symm
  have hended : textMachine.step (.send [lastPieces]) pieceHeld = some pieceEnded := (Option.some_get _).symm
  have hreach : textMachine.Reach (fun w label => WellSent w label ∧ SafelySent pieceBytes w label)
      (TextStart pieceBytes) pieceEnded :=
    (((Machine.Reach.start pieceService_start).step ⟨hnew, trivial⟩ rfl).step ⟨hfirst, hfirstSafe⟩ hheld).step
      ⟨hlast, hlastSafe⟩ hended
  exact (incremental_text_one_shot hreach).1 0 (sentReq [] [1, 2, 7] (some (.matchedToken 7)) ⟨true, true⟩ false) _
    rfl rfl

/-- A request that skips special tokens, and one that does not, in one batch. -/
def mixedArrived : TextService := (pieceService.arrive 0 [] ⟨true, true⟩ false).arrive 1 [] ⟨false, true⟩ false

def mixedParts : List OutputPart := [⟨0, [1], none⟩, ⟨1, [3], some (.length 1)⟩]

def mixedSent : TextService := (mixedArrived.send mixedParts).get (by decide +kernel)

theorem mixed_flags_skip_special : ¬ ∀ (bytes : DecodeFlags → Nat → List UInt8) (w : TextService),
    textMachine.Reach WellSent (TextStart bytes) w → OneShotText bytes w := by
  intro h
  have hsend : WellSent mixedArrived (.send mixedParts) := by
    refine ⟨List.cons_ne_nil _ _, by decide, fun part hpart => ?_, fun part hpart matched hmatched => ?_⟩
    · rcases List.mem_cons.mp hpart with rfl | hpart
      · exact ⟨_, rfl, rfl⟩
      · cases List.mem_singleton.mp hpart
        exact ⟨_, rfl, rfl⟩
    · rcases List.mem_cons.mp hpart with rfl | hpart
      · cases hmatched
      · cases List.mem_singleton.mp hpart
        cases hmatched
  have hfirst : WellSent pieceService (.arrive 0 [] ⟨true, true⟩ false) := rfl
  have hsecond : WellSent (pieceService.arrive 0 [] ⟨true, true⟩ false) (.arrive 1 [] ⟨false, true⟩ false) := rfl
  have hsent : textMachine.step (.send mixedParts) mixedArrived = some mixedSent := (Option.some_get _).symm
  have hreach : textMachine.Reach WellSent (TextStart pieceBytes) mixedSent :=
    (((Machine.Reach.start pieceService_start).step hfirst rfl).step hsecond rfl).step hsend hsent
  have htext := h pieceBytes mixedSent hreach 1 (sentReq [] [3] (some (.length 1)) ⟨false, true⟩ false) _ rfl rfl
  exact absurd htext (by decide +kernel)

end QCFuse.Guarantees
