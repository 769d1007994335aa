import QCFuse.Guarantees.AdmittedLayouts
import QCFuse.Guarantees.AugmentedLayouts
import QCFuse.Library.Occurrences

/-!
# Splitting tokens at a separator

`split_tokens` finds the separator wherever it occurs, drops every token of an occurrence and
counts the segments between the places found. The segments are those between the occurrences a
search from left to right finds exactly if no two occurrences overlap.
-/

set_option autoImplicit false

namespace QCFuse.Guarantees

open QCFuse.Library QCFuse.Source

/-- The tokens of a chunk. -/
def chunkTokens (ids : List Nat) (chunk : Int × Int) : List Nat :=
  (ids.drop chunk.1.toNat).take (chunk.2 - chunk.1).toNat

/-- The chunks are the segments between the occurrences of the separator, from left to right. -/
def SplitsExactly (ids sepToken : List Nat) (split : BlendTokenized) : Prop :=
  ∃ locs, split.blendLocList = some locs ∧ WellLaid split.inputIds locs ∧
    (chunkAbsRanges locs).map (chunkTokens split.inputIds) = segments sepToken ids ∧
    (chunkAbsRanges locs).length = (leftToRight sepToken 0 0 ids).length + 1

/-- No two occurrences of the separator overlap. -/
def NoOverlap (ids sepToken : List Nat) : Prop :=
  ∀ m m', m < m' → sepToken <+: ids.drop m → sepToken <+: ids.drop m' → m + sepToken.length ≤ m'

/-! ## The places found -/

theorem prefix_drop_iff {ids sepToken : List Nat} (m : Nat) :
    (ids.drop m).take sepToken.length = sepToken ↔ sepToken <+: ids.drop m := by
  rw [List.prefix_iff_eq_take]
  exact eq_comm

theorem prefix_drop_le {ids sepToken : List Nat} {m : Nat} (hsep : sepToken ≠ [])
    (h : sepToken <+: ids.drop m) : m + sepToken.length ≤ ids.length := by
  have hpos := List.length_pos_iff.mpr hsep
  have hle := h.length_le
  rw [List.length_drop] at hle
  omega

theorem findPatternMatches_eq {ids sepToken : List Nat} (hsep : sepToken ≠ []) :
    findPatternMatches ids sepToken = occurrences sepToken 0 ids := by
  have hpos := List.length_pos_iff.mpr hsep
  have hpred : ∀ m, decide ((ids.drop m).take sepToken.length = sepToken) =
      decide (sepToken <+: ids.drop m) := fun m => decide_eq_decide.mpr (prefix_drop_iff m)
  have hsplit : ids.length = (ids.length + 1 - sepToken.length) +
      (ids.length - (ids.length + 1 - sepToken.length)) := by omega
  rw [occurrences_eq_filter, ← List.range_eq_range', hsplit, List.range_add, List.filter_append,
    findPatternMatches]
  simp only [hpred, Nat.sub_zero]
  refine (List.append_nil _).symm.trans (congrArg _ (Eq.symm ?_))
  rw [List.filter_eq_nil_iff]
  intro m hm hpre
  obtain ⟨k, -, rfl⟩ := List.mem_map.mp hm
  have := prefix_drop_le hsep (of_decide_eq_true hpre)
  omega

theorem mem_findPatternMatches {ids sepToken : List Nat} {m : Nat} (hsep : sepToken ≠ []) :
    m ∈ findPatternMatches ids sepToken ↔ sepToken <+: ids.drop m := by
  have hpos := List.length_pos_iff.mpr hsep
  rw [findPatternMatches, List.mem_filter, List.mem_range, decide_eq_true_iff, prefix_drop_iff]
  refine ⟨And.right, fun h => ⟨?_, h⟩⟩
  have := prefix_drop_le hsep h
  omega

theorem apart_iff {ids sepToken : List Nat} (hsep : sepToken ≠ []) :
    Apart sepToken.length (findPatternMatches ids sepToken) ↔ NoOverlap ids sepToken := by
  have hpos := List.length_pos_iff.mpr hsep
  have hsorted : (findPatternMatches ids sepToken).Pairwise (· < ·) :=
    List.pairwise_lt_range.filter _
  constructor
  · intro h m m' hlt hm hm'
    rw [← mem_findPatternMatches hsep] at hm hm'
    by_contra hclose
    have hboth : (findPatternMatches ids sepToken).Pairwise fun a b =>
        a < b ∧ a + sepToken.length ≤ b := hsorted.and h
    obtain ⟨i, hi, rfl⟩ := List.getElem_of_mem hm
    obtain ⟨j, hj, rfl⟩ := List.getElem_of_mem hm'
    rcases Nat.lt_trichotomy i j with hij | rfl | hji
    · exact hclose (List.pairwise_iff_getElem.mp h i j hi hj hij)
    · exact absurd hlt (lt_irrefl _)
    · have := List.pairwise_iff_getElem.mp hsorted j i hj hi hji
      omega
  · intro h
    refine hsorted.imp_of_mem fun {m m'} hm hm' hlt => ?_
    exact h m m' hlt ((mem_findPatternMatches hsep).mp hm) ((mem_findPatternMatches hsep).mp hm')

/-! ## The segments kept -/

/-- The places where a segment begins, and the end of the last one, are the running sums of the
lengths of the segments. -/
theorem segmentStarts_eq (ids : List Nat) (width : Nat) {cuts : List Nat} {prev : Nat} (cur : Int)
    (hprev : ∀ m ∈ cuts, prev ≤ m) (hapart : Apart width cuts) (hfits : ∀ m ∈ cuts, m + width ≤ ids.length) :
    segmentStarts width cuts cur prev ++
        [cur + ((pieces ids width prev cuts).flatten.length : Int)] =
      cur :: cumsumFrom cur ((pieces ids width prev cuts).map fun piece => (piece.length : Int)) := by
  induction cuts generalizing prev cur with
  | nil => simp [segmentStarts, pieces, cumsumFrom]
  | cons m cuts ih =>
    obtain ⟨hfirst, hrest⟩ := List.pairwise_cons.mp hapart
    have hm := hprev m List.mem_cons_self
    have hfit := hfits m List.mem_cons_self
    have hlen : (((ids.drop prev).take (m - prev)).length : Int) = m - prev := by
      rw [List.length_take, List.length_drop]
      omega
    have htail := ih (cur + (m - prev)) hfirst hrest fun m' hm' => hfits m' (List.mem_cons_of_mem m hm')
    push_cast at htail
    rw [segmentStarts, pieces, List.map_cons, cumsumFrom, hlen, ← htail, List.flatten_cons,
      List.length_append, List.cons_append]
    push_cast
    rw [hlen, Int.add_assoc]

/-- `keep_mask` at a place. -/
def keptAt (width : Nat) (cuts : List Nat) (place : Nat) : Bool :=
  cuts.all fun m => !(decide (m ≤ place) && decide (place < m + width))

theorem keptAt_before {width place : Nat} {cuts : List Nat} (h : ∀ m ∈ cuts, place < m) :
    keptAt width cuts place = true := by
  rw [keptAt, List.all_eq_true]
  intro m hm
  rw [decide_eq_false (Nat.not_le.mpr (h m hm))]
  rfl

theorem keptAt_inside {width place m : Nat} (cuts : List Nat) (hle : m ≤ place)
    (hlt : place < m + width) : ¬ keptAt width (m :: cuts) place = true := by
  rw [keptAt, List.all_cons, decide_eq_true hle, decide_eq_true hlt]
  exact nofun

theorem keptAt_behind {width place m : Nat} (cuts : List Nat) (h : m + width ≤ place) :
    keptAt width (m :: cuts) place = keptAt width cuts place := by
  rw [keptAt, List.all_cons, decide_eq_false (Nat.not_lt.mpr h), Bool.and_false, Bool.not_false,
    Bool.true_and, keptAt]

/-- The mask keeps the tokens between the occurrences. -/
theorem keptIds_eq (ids : List Nat) (width : Nat) {cuts : List Nat} {prev : Nat}
    (hprev : ∀ m ∈ cuts, prev ≤ m) (hapart : Apart width cuts) (hfits : ∀ m ∈ cuts, m + width ≤ ids.length) :
    (((ids.drop prev).zipIdx prev).filter fun entry => keptAt width cuts entry.2).map Prod.fst =
      (pieces ids width prev cuts).flatten := by
  induction cuts generalizing prev with
  | nil => simp [pieces, keptAt]
  | cons m cuts ih =>
    obtain ⟨hfirst, hrest⟩ := List.pairwise_cons.mp hapart
    have hm := hprev m List.mem_cons_self
    have hfit := hfits m List.mem_cons_self
    have hafter := ih hfirst hrest fun m' hm' => hfits m' (List.mem_cons_of_mem m hm')
    have hdrop : (ids.drop prev).drop (m - prev) = (ids.drop m).take width ++ ids.drop (m + width) := by
      rw [List.drop_drop, Nat.add_sub_cancel' hm, ← List.drop_drop, List.take_append_drop]
    have hlen : ((ids.drop prev).take (m - prev)).length = m - prev := by
      rw [List.length_take, List.length_drop]
      omega
    have hwidth : ((ids.drop m).take width).length = width := by
      rw [List.length_take, List.length_drop]
      omega
    have hbefore : ∀ entry ∈ ((ids.drop prev).take (m - prev)).zipIdx prev,
        keptAt width (m :: cuts) entry.2 = true := by
      intro entry hentry
      have hlt := List.snd_lt_add_of_mem_zipIdx hentry
      refine keptAt_before fun m' hm' => ?_
      rcases List.mem_cons.mp hm' with rfl | hm'
      · omega
      · have := hfirst m' hm'
        omega
    have hinside : ∀ entry ∈ ((ids.drop m).take width).zipIdx m,
        ¬ keptAt width (m :: cuts) entry.2 = true := by
      intro entry hentry
      have hlt := List.snd_lt_add_of_mem_zipIdx hentry
      exact keptAt_inside cuts (List.le_snd_of_mem_zipIdx hentry) (by omega)
    have hbehind : ∀ entry ∈ (ids.drop (m + width)).zipIdx (m + width),
        keptAt width (m :: cuts) entry.2 = keptAt width cuts entry.2 :=
      fun entry hentry => keptAt_behind cuts (List.le_snd_of_mem_zipIdx hentry)
    rw [pieces, List.flatten_cons, ← hafter, ← List.take_append_drop (m - prev) (ids.drop prev), hdrop,
      List.take_left' hlen, List.zipIdx_append, List.zipIdx_append, hlen, hwidth,
      Nat.add_sub_cancel' hm, List.filter_append, List.filter_append, List.map_append, List.map_append,
      List.filter_eq_self.mpr hbefore, List.filter_eq_nil_iff.mpr hinside, List.filter_congr hbehind,
      List.map_nil, List.nil_append, List.zipIdx_map_fst]

/-! ## The chunks -/

/-- Between the running sums of the lengths of the pieces stand the pieces. -/
theorem map_chunkTokens (front : List Nat) (parts : List (List Nat)) :
    (chunkAbsRanges ((front.length : Int) ::
        cumsumFrom front.length (parts.map fun part => (part.length : Int)))).map
      (chunkTokens (front ++ parts.flatten)) = parts := by
  induction parts generalizing front with
  | nil => rfl
  | cons part parts ih =>
    have hrest := ih (front ++ part)
    rw [List.length_append, Nat.cast_add, List.append_assoc, ← List.flatten_cons] at hrest
    have hchunk : chunkTokens (front ++ (part :: parts).flatten)
        ((front.length : Int), (front.length : Int) + part.length) = part := by
      rw [chunkTokens, Int.toNat_natCast, List.drop_left, add_sub_cancel_left, Int.toNat_natCast,
        List.flatten_cons, List.take_left]
    rw [List.map_cons, cumsumFrom, chunkAbsRanges_cons_cons, List.map_cons, hchunk, hrest]

theorem cumsumFrom_within (base : Int) (parts : List (List Nat)) :
    (base :: cumsumFrom base (parts.map fun part => (part.length : Int))).Pairwise (· ≤ ·) ∧
      ∀ loc ∈ base :: cumsumFrom base (parts.map fun part => (part.length : Int)),
        loc ≤ base + (parts.flatten.length : Int) := by
  induction parts generalizing base with
  | nil => simp [cumsumFrom]
  | cons part parts ih =>
    obtain ⟨hgrows, hwithin⟩ := ih (base + part.length)
    rw [List.map_cons, cumsumFrom, List.flatten_cons, List.length_append]
    push_cast
    refine ⟨List.pairwise_cons.mpr ⟨fun loc hloc => ?_, hgrows⟩, fun loc hloc => ?_⟩
    · rcases List.mem_cons.mp hloc with rfl | hloc
      · omega
      · have := List.rel_of_pairwise_cons hgrows hloc
        omega
    · rcases List.mem_cons.mp hloc with rfl | hloc
      · omega
      · have := hwithin loc hloc
        omega

theorem wellLaid_parts (parts : List (List Nat)) :
    WellLaid parts.flatten (cumsumLens (parts.map fun part => (part.length : Int))) where
  starts := rfl
  grows := (cumsumFrom_within 0 parts).1
  ends := by
    rw [cumsumLens, getLast?_cumsumFrom, Int.zero_add, List.length_flatten, Nat.cast_list_sum,
      List.map_map]
    rfl
  within := fun loc hloc => by
    have := (cumsumFrom_within 0 parts).2 loc hloc
    rwa [Int.zero_add] at this

section Split

variable (inputText : Option String) {ids sepToken : List Nat} (separator : String)

/-- Where no two occurrences overlap the tokens left and the boundaries are those of the segments. -/
theorem splitTokens_segments (hsep : sepToken ≠ []) (hlen : sepToken.length ≤ ids.length)
    (h : NoOverlap ids sepToken) :
    (splitTokens inputText ids separator sepToken).inputIds = (segments sepToken ids).flatten ∧
      (splitTokens inputText ids separator sepToken).blendLocList =
        some (cumsumLens ((segments sepToken ids).map fun part => (part.length : Int))) := by
  have hapart := (apart_iff hsep).mpr h
  have hall : leftToRight sepToken 0 0 ids = findPatternMatches ids sepToken := by
    rw [findPatternMatches_eq hsep] at hapart ⊢
    exact leftToRight_eq_occurrences hsep (fun m _ => Nat.zero_le m) hapart
  have hfits : ∀ m ∈ findPatternMatches ids sepToken, m + sepToken.length ≤ ids.length :=
    fun m hm => prefix_drop_le hsep ((mem_findPatternMatches hsep).mp hm)
  have hkept : keptIds ids (findPatternMatches ids sepToken) sepToken.length =
      (pieces ids sepToken.length 0 (findPatternMatches ids sepToken)).flatten :=
    keptIds_eq ids sepToken.length (fun m _ => Nat.zero_le m) hapart hfits
  have hstarts := segmentStarts_eq ids sepToken.length 0 (fun m _ => Nat.zero_le m) hapart hfits
  rw [Nat.cast_zero, Int.zero_add] at hstarts
  have hnonempty : ¬ (sepToken.length = 0 ∨ ids.length < sepToken.length) := by
    have := List.length_pos_iff.mpr hsep
    omega
  unfold splitTokens
  rw [if_neg hnonempty, segments, hall]
  dsimp only
  by_cases hnone : findPatternMatches ids sepToken = []
  · rw [if_pos hnone, hnone]
    simp [pieces, cumsumLens, cumsumFrom]
  · rw [if_neg hnone]
    refine ⟨hkept, ?_⟩
    rw [hkept, hstarts, cumsumLens]

theorem length_chunkAbsRanges (locs : List Int) : (chunkAbsRanges locs).length = locs.length - 1 := by
  rw [chunkAbsRanges_eq, List.length_map, List.length_range]

theorem length_segmentStarts (sepLen : Nat) (cuts : List Nat) (cur prev : Int) :
    (segmentStarts sepLen cuts cur prev).length = cuts.length + 1 := by
  induction cuts generalizing cur prev with
  | nil => rfl
  | cons m cuts ih => rw [segmentStarts, List.length_cons, ih, List.length_cons]

/-- One chunk more than there are places where the separator is found. -/
theorem splitTokens_chunks (hsep : sepToken ≠ []) (hlen : sepToken.length ≤ ids.length) {locs : List Int}
    (h : (splitTokens inputText ids separator sepToken).blendLocList = some locs) :
    (chunkAbsRanges locs).length = (findPatternMatches ids sepToken).length + 1 := by
  have hnonempty : ¬ (sepToken.length = 0 ∨ ids.length < sepToken.length) := by
    have := List.length_pos_iff.mpr hsep
    omega
  unfold splitTokens at h
  rw [if_neg hnonempty] at h
  dsimp only at h
  rw [length_chunkAbsRanges]
  split at h
  next hnone =>
    cases h
    rw [hnone]
    rfl
  next =>
    cases h
    rw [List.length_append, length_segmentStarts]
    rfl

end Split

/-- The chunks are the segments between the non-overlapping occurrences exactly if all occurrences
are such. -/
theorem splitTokens_exact_iff (inputText : Option String) (ids : List Nat) (separator : String)
    {sepToken : List Nat} (hsep : sepToken ≠ []) (hlen : sepToken.length ≤ ids.length) :
    SplitsExactly ids sepToken (splitTokens inputText ids separator sepToken) ↔
      NoOverlap ids sepToken := by
  constructor
  · rintro ⟨locs, hlocs, -, -, hcount⟩
    have hchunks := splitTokens_chunks inputText separator hsep hlen hlocs
    rw [hcount, Nat.add_right_cancel_iff, findPatternMatches_eq hsep] at hchunks
    have hapart := (length_leftToRight_iff hsep ids).mp hchunks
    rw [← findPatternMatches_eq hsep] at hapart
    exact (apart_iff hsep).mp hapart
  · intro h
    obtain ⟨hids, hlocs⟩ := splitTokens_segments inputText separator hsep hlen h
    have hchunks := map_chunkTokens [] (segments sepToken ids)
    refine ⟨_, hlocs, ?_, ?_, ?_⟩
    · rw [hids]
      exact wellLaid_parts _
    · rw [hids]
      exact hchunks
    · have hlength := congrArg List.length hchunks
      rw [List.length_map] at hlength
      exact hlength.trans (length_segments sepToken ids)

/-- Two occurrences side by side. -/
theorem splitTokens_exact_adjacent :
    SplitsExactly [7, 1, 2, 1, 2, 8] [1, 2] (splitTokens none [7, 1, 2, 1, 2, 8] "##" [1, 2]) ↔
      NoOverlap [7, 1, 2, 1, 2, 8] [1, 2] :=
  splitTokens_exact_iff none [7, 1, 2, 1, 2, 8] "##" (by decide) (by decide)

/-- Three equal tokens hold a separator of two of them twice: the boundaries are 0, 0, -1, 0. -/
theorem splitTokens_overlap : ¬ SplitsExactly [1, 1, 1] [1, 1] (splitTokens none [1, 1, 1] "##" [1, 1]) := by
  rintro ⟨locs, hlocs, hlaid, -⟩
  have hvalue : (splitTokens none [1, 1, 1] "##" [1, 1]).blendLocList = some [0, 0, -1, 0] := by decide
  obtain rfl : [0, 0, -1, 0] = locs := Option.some.inj (hvalue.symm.trans hlocs)
  exact absurd hlaid.grows (by decide)

end QCFuse.Guarantees
