import QCFuse.Guarantees.PromptLayout
import QCFuse.Library.Intervals

/-!
# The coordinates of an augmented prompt

`raw_locs` splits an augmented prompt into system, documents and zip prompts in turn, and query.
The forward chunks join each document with its zip prompt; the original chunks leave the zip
prompts out, and `keep_indices` leads from the original prompt back into the augmented one.
-/

set_option autoImplicit false

namespace QCFuse.Guarantees

open QCFuse.Library QCFuse.Source

/-- The query chunk: `(raw_locs[-2], raw_locs[-1])`. -/
def queryRange (rawLocs : List Int) : Int × Int :=
  (rawLocs.getD (rawLocs.length - 2) 0, rawLocs.getD (rawLocs.length - 1) 0)

/-- The augmented ranges of the original chunks. -/
def originalRanges (locs : AugmentedLocs) (query : Int × Int) : List (Int × Int) :=
  locs.augSysRange :: locs.augDocRanges ++ [query]

/-- The augmented ranges of the forward chunks: every document with the zip prompt behind it. -/
def forwardRanges (locs : AugmentedLocs) (query : Int × Int) : List (Int × Int) :=
  locs.augSysRange :: (locs.augDocRanges.zip locs.augZipRanges).map (fun c => (c.1.1, c.2.2)) ++
    [query]

/-- `p -> keep[p]` leads from the chunk `o` onto the range `c`, in order. -/
structure MapsOnto (keep : List Int) (o c : Int × Int) : Prop where
  nonneg : 0 ≤ o.1
  width : o.2 - o.1 = c.2 - c.1
  ordered : c.1 ≤ c.2
  entry : ∀ k : Nat, (k : Int) < c.2 - c.1 → keep[o.1.toNat + k]? = some (c.1 + k)

/-- The three coordinate lists of an augmented prompt agree. -/
structure LayoutAlgebra (rawLocs : List Int) (locs : AugmentedLocs) : Prop where
  chunks : chunkAbsRanges rawLocs = locs.augSysRange ::
    (locs.augDocRanges.zip locs.augZipRanges).flatMap (fun c => [c.1, c.2]) ++ [queryRange rawLocs]
  paired : locs.augDocRanges.length = locs.augZipRanges.length
  increasing : locs.keepIndices.Pairwise (· < ·)
  union : ∀ t, t ∈ locs.keepIndices ↔ Inside locs.augSysRange t ∨
    (∃ doc ∈ locs.augDocRanges, Inside doc t) ∨ Inside (queryRange rawLocs) t
  disjoint : ∀ t ∈ locs.keepIndices, ∀ zip ∈ locs.augZipRanges, ¬ Inside zip t
  original : List.Forall₂ (MapsOnto locs.keepIndices) (chunkAbsRanges locs.originalLocs)
    (originalRanges locs (queryRange rawLocs))
  forward : chunkAbsRanges locs.forwardLocs = forwardRanges locs (queryRange rawLocs)
  followed : ∀ c ∈ locs.augDocRanges.zip locs.augZipRanges, c.1.2 = c.2.1
  forwardLast : locs.forwardLocs.getLast? = rawLocs.getLast?
  originalLast : locs.originalLocs.getLast? = some (locs.keepIndices.length : Int)

/-! ## Chunks and boundaries -/

theorem chunkAbsRanges_cons_cons (a b : Int) (locs : List Int) :
    chunkAbsRanges (a :: b :: locs) = (a, b) :: chunkAbsRanges (b :: locs) := rfl

theorem chunkAbsRanges_eq (locs : List Int) : chunkAbsRanges locs =
    (List.range (locs.length - 1)).map fun i => (locs.getD i 0, locs.getD (i + 1) 0) := by
  induction locs with
  | nil => rfl
  | cons a locs ih =>
    cases locs with
    | nil => rfl
    | cons b locs =>
      rw [chunkAbsRanges_cons_cons, ih]
      simp only [List.length_cons, Nat.add_sub_cancel, List.range_succ_eq_map, List.map_cons,
        List.map_map, Function.comp_def, List.getD_cons_zero, List.getD_cons_succ]

/-- The running sums of the widths of adjoining intervals are their boundaries. -/
theorem chunkAbsRanges_adjoining {ranges : List (Int × Int)} {base : Int}
    (h : Adjoining base ranges) :
    chunkAbsRanges (base :: cumsumFrom base (ranges.map fun c => c.2 - c.1)) = ranges := by
  induction ranges generalizing base with
  | nil => rfl
  | cons c ranges ih =>
    obtain ⟨rfl, hrest⟩ := h
    rw [List.map_cons, cumsumFrom, chunkAbsRanges_cons_cons, Int.add_comm, Int.sub_add_cancel,
      ih hrest]

/-- The chunks between the running sums lead onto the intervals whose widths were summed. -/
theorem mapsOnto_points {ranges : List (Int × Int)} (hranges : ∀ c ∈ ranges, c.1 ≤ c.2)
    (front : List Int) :
    List.Forall₂ (MapsOnto (front ++ points ranges))
      (chunkAbsRanges ((front.length : Int) ::
        cumsumFrom front.length (ranges.map fun c => c.2 - c.1))) ranges := by
  induction ranges generalizing front with
  | nil => exact .nil
  | cons c ranges ih =>
    have hc := hranges c List.mem_cons_self
    have hwidth := length_range c.1 c.2
    have hfront : ((front ++ Int.range c.1 c.2).length : Int) = front.length + (c.2 - c.1) := by
      rw [List.length_append, hwidth]
      omega
    have hrest := ih (fun d hd => hranges d (List.mem_cons_of_mem c hd)) (front ++ Int.range c.1 c.2)
    rw [hfront, List.append_assoc, ← points_cons] at hrest
    rw [List.map_cons, cumsumFrom, chunkAbsRanges_cons_cons]
    refine .cons ⟨by omega, by dsimp only; omega, hc, fun k hk => ?_⟩ hrest
    rw [Int.toNat_natCast, List.getElem?_append_right (by omega), Nat.add_sub_cancel_left, points_cons,
      List.getElem?_append_left (by omega), getElem?_range hk]

theorem sum_adjoining {ranges : List (Int × Int)} {base : Int} {c : Int × Int}
    (h : Adjoining base (ranges ++ [c])) :
    base + ((ranges ++ [c]).map fun d => d.2 - d.1).sum = c.2 := by
  induction ranges generalizing base with
  | nil =>
    obtain ⟨rfl, -⟩ := h
    simp
  | cons d ranges ih =>
    obtain ⟨rfl, hrest⟩ := h
    rw [← ih hrest, List.cons_append, List.map_cons, List.sum_cons]
    omega

theorem getLast?_cumsumFrom (base : Int) (lens : List Int) :
    (base :: cumsumFrom base lens).getLast? = some (base + lens.sum) := by
  induction lens generalizing base with
  | nil => rw [cumsumFrom, List.getLast?_singleton, List.sum_nil, Int.add_zero]
  | cons len lens ih =>
    rw [cumsumFrom, List.getLast?_cons_cons, ih, List.sum_cons, Int.add_assoc]

theorem length_points {ranges : List (Int × Int)} (hranges : ∀ c ∈ ranges, c.1 ≤ c.2) :
    ((points ranges).length : Int) = (ranges.map fun c => c.2 - c.1).sum := by
  induction ranges with
  | nil => rfl
  | cons c ranges ih =>
    have hc := hranges c List.mem_cons_self
    rw [points_cons, List.length_append, length_range, List.map_cons, List.sum_cons,
      ← ih fun d hd => hranges d (List.mem_cons_of_mem c hd)]
    omega

/-! ## The layout of `n` documents -/

section Layout

variable (loc : Nat → Int) (n : Nat)

/-- The query chunk of a layout of `n` documents. -/
def lastRange : Int × Int := (loc (2 * n + 1), loc (2 * n + 2))

theorem zip_docs_zips : (docRanges loc n).zip (zipRanges loc n) = (List.range n).map fun i =>
    ((loc (2 * i + 1), loc (2 * i + 2)), (loc (2 * i + 2), loc (2 * i + 3))) := by
  rw [docRanges, zipRanges, List.zip_map']

theorem keepIndices_eq : (augmentedLocs loc n).keepIndices =
    points (originalRanges (augmentedLocs loc n) (lastRange loc n)) := by
  rw [originalRanges, points_append, points_cons, points_cons, points_nil, List.append_nil]
  simp only [augmentedLocs, docRanges, lastRange, points, List.flatMap_map]
  rfl

theorem originalLocs_eq : (augmentedLocs loc n).originalLocs = cumsumLens
    ((originalRanges (augmentedLocs loc n) (lastRange loc n)).map fun c => c.2 - c.1) := by
  simp [originalRanges, augmentedLocs, docRanges, lastRange, Function.comp_def]

theorem forwardLocs_eq : (augmentedLocs loc n).forwardLocs = cumsumLens
    ((forwardRanges (augmentedLocs loc n) (lastRange loc n)).map fun c => c.2 - c.1) := by
  simp only [forwardRanges, augmentedLocs, zip_docs_zips, lastRange, List.map_append, List.map_cons,
    List.map_map, List.map_nil, Function.comp_def]

/-- The forward chunks cover the prompt without a gap. -/
theorem adjoining_forwardRanges :
    Adjoining (loc 0) (forwardRanges (augmentedLocs loc n) (lastRange loc n)) := by
  have hdocs : Adjoining (loc 1) ((List.range' 0 n).map (fun i => (loc (2 * i + 1), loc (2 * i + 3))) ++
      [lastRange loc n]) :=
    adjoining_steps (fun i => loc (2 * i + 1)) n 0 ⟨by rw [Nat.zero_add, lastRange], trivial⟩
  rw [← List.range_eq_range'] at hdocs
  simp only [forwardRanges, augmentedLocs, zip_docs_zips, List.map_map, Function.comp_def]
  exact ⟨rfl, hdocs⟩

/-- The chunks of a list, two at a time between the first and the last. -/
theorem map_range_pairs {α : Type} (f : Nat → α) : (List.range (2 * n + 2)).map f =
    f 0 :: (List.range n).flatMap (fun i => [f (2 * i + 1), f (2 * i + 2)]) ++ [f (2 * n + 1)] := by
  have hfront : (List.range (2 * n + 1)).map f =
      f 0 :: (List.range n).flatMap fun i => [f (2 * i + 1), f (2 * i + 2)] := by
    induction n with
    | zero => rfl
    | succ n ih =>
      rw [show 2 * (n + 1) + 1 = 2 * n + 1 + 1 + 1 by omega, List.range_succ, List.range_succ,
        List.map_append, List.map_append, ih, List.range_succ, List.flatMap_append]
      simp
  rw [List.range_succ, List.map_append, hfront, List.map_singleton]

variable {loc n} (hmono : ∀ i j, i ≤ j → j ≤ 2 * n + 2 → loc i ≤ loc j)
include hmono

theorem originalRanges_ordered :
    ∀ c ∈ originalRanges (augmentedLocs loc n) (lastRange loc n), c.1 ≤ c.2 := by
  intro c hc
  rw [originalRanges, List.cons_append, List.mem_cons, List.mem_append, List.mem_singleton] at hc
  rcases hc with rfl | hdoc | rfl
  · exact hmono 0 1 (by omega) (by omega)
  · obtain ⟨i, hi, rfl⟩ := List.mem_map.mp hdoc
    have hi := List.mem_range.mp hi
    exact hmono (2 * i + 1) (2 * i + 2) (by omega) (by omega)
  · exact hmono (2 * n + 1) (2 * n + 2) (by omega) (by omega)

/-- Each original chunk ends before the next one begins, behind its zip prompt. -/
theorem originalRanges_pairwise :
    (originalRanges (augmentedLocs loc n) (lastRange loc n)).Pairwise fun c d => c.2 ≤ d.1 := by
  rw [originalRanges, List.cons_append, List.pairwise_cons, List.pairwise_append]
  refine ⟨fun c hc => ?_, ?_, List.pairwise_singleton _ _, fun c hc d hd => ?_⟩
  · rcases List.mem_append.mp hc with hdoc | hlast
    · obtain ⟨i, hi, rfl⟩ := List.mem_map.mp hdoc
      have hi := List.mem_range.mp hi
      exact hmono 1 (2 * i + 1) (by omega) (by omega)
    · rw [List.mem_singleton.mp hlast]
      exact hmono 1 (2 * n + 1) (by omega) (by omega)
  · rw [augmentedLocs, docRanges, List.pairwise_map]
    refine (List.pairwise_lt_range (n := n)).imp_of_mem fun {i j} hi hj hij => ?_
    have hj := List.mem_range.mp hj
    exact hmono (2 * i + 2) (2 * j + 1) (by omega) (by omega)
  · obtain ⟨i, hi, rfl⟩ := List.mem_map.mp hc
    have hi := List.mem_range.mp hi
    rw [List.mem_singleton.mp hd]
    exact hmono (2 * i + 2) (2 * n + 1) (by omega) (by omega)

/-- A zip prompt lies between two neighbouring original chunks. -/
theorem zip_outside {zip : Int × Int} (hzip : zip ∈ zipRanges loc n) {t : Int} (ht : Inside zip t) :
    t ∉ (augmentedLocs loc n).keepIndices := by
  obtain ⟨i, hi, rfl⟩ := List.mem_map.mp hzip
  have hi := List.mem_range.mp hi
  obtain ⟨hlo, hhi⟩ := ht
  dsimp only at hlo hhi
  rw [keepIndices_eq, mem_points]
  rintro ⟨c, hc, hcl, hch⟩
  rw [originalRanges, List.cons_append, List.mem_cons, List.mem_append, List.mem_singleton] at hc
  rcases hc with rfl | hdoc | rfl
  · have := hmono 1 (2 * i + 2) (by omega) (by omega)
    dsimp only [augmentedLocs] at hch
    omega
  · obtain ⟨j, hj, rfl⟩ := List.mem_map.mp hdoc
    have hj := List.mem_range.mp hj
    dsimp only at hcl hch
    rcases Nat.lt_or_ge i j with hij | hij
    · have := hmono (2 * i + 3) (2 * j + 1) (by omega) (by omega)
      omega
    · have := hmono (2 * j + 2) (2 * i + 2) (by omega) (by omega)
      omega
  · have := hmono (2 * i + 3) (2 * n + 1) (by omega) (by omega)
    dsimp only [lastRange] at hcl
    omega

end Layout

/-- The boundaries of `n` documents, each with a zip prompt. -/
theorem layoutAlgebra {rawLocs : List Int} {n : Nat} (hlen : rawLocs.length = 2 * n + 3)
    (hfirst : rawLocs.getD 0 0 = 0) (hsorted : rawLocs.Pairwise (· ≤ ·)) :
    LayoutAlgebra rawLocs (augmentedLocs (rawLocs.getD · 0) n) := by
  have hmono : ∀ i j, i ≤ j → j ≤ 2 * n + 2 → rawLocs.getD i 0 ≤ rawLocs.getD j 0 :=
    fun i j hij hj => getD_mono hsorted hij (by omega)
  have hquery : queryRange rawLocs = lastRange (rawLocs.getD · 0) n := by
    rw [queryRange, hlen, lastRange]
    rfl
  have hordered := originalRanges_ordered hmono
  have hpoints := keepIndices_eq (rawLocs.getD · 0) n
  have hlast : rawLocs.getLast? = some (rawLocs.getD (2 * n + 2) 0) := by
    rw [List.getLast?_eq_getElem?, hlen, List.getD_eq_getElem?_getD, Nat.add_sub_cancel (m := 1),
      List.getElem?_eq_getElem (by omega), Option.getD_some]
  have hadjoining := adjoining_forwardRanges (rawLocs.getD · 0) n
  rw [hfirst] at hadjoining
  constructor
  · rw [chunkAbsRanges_eq, hlen, show 2 * n + 3 - 1 = 2 * n + 2 by omega, map_range_pairs, hquery]
    simp only [augmentedLocs, zip_docs_zips, List.flatMap_map]
    rfl
  · simp only [augmentedLocs, docRanges, zipRanges, List.length_map]
  · rw [hpoints]
    exact pairwise_points (originalRanges_pairwise hmono)
  · intro t
    rw [hquery, hpoints, mem_points]
    simp only [originalRanges, List.cons_append, List.mem_cons, List.mem_append, List.not_mem_nil,
      or_false, or_and_right, exists_or, exists_eq_left]
  · intro t ht zip hzip hinside
    exact zip_outside hmono hzip hinside ht
  · rw [hquery, hpoints, originalLocs_eq]
    exact mapsOnto_points hordered []
  · rw [hquery, forwardLocs_eq, cumsumLens]
    exact chunkAbsRanges_adjoining hadjoining
  · intro c hc
    rw [augmentedLocs, zip_docs_zips] at hc
    obtain ⟨i, -, rfl⟩ := List.mem_map.mp hc
    rfl
  · rw [hlast, forwardLocs_eq, cumsumLens, getLast?_cumsumFrom]
    exact congrArg some (sum_adjoining hadjoining)
  · rw [originalLocs_eq, cumsumLens, getLast?_cumsumFrom, hpoints, length_points hordered, Int.zero_add]

/-- Every non-decreasing `raw_locs` from 0 on, with an even number of at least four chunks, gets
coordinates that agree; any other number of chunks gets none. -/
theorem augmented_layout_algebra (rawLocs : List Int) :
    (rawLocs.head? = some 0 → rawLocs.Pairwise (· ≤ ·) →
      4 ≤ numRawChunks rawLocs ∧ numRawChunks rawLocs % 2 = 0 →
      ∃ locs, prepareAugmentedLocsForRequest rawLocs = some locs ∧ LayoutAlgebra rawLocs locs) ∧
    (¬ (4 ≤ numRawChunks rawLocs ∧ numRawChunks rawLocs % 2 = 0) →
      prepareAugmentedLocsForRequest rawLocs = none) := by
  refine ⟨fun hfirst hsorted hcount => ?_, prepareAugmentedLocs_none⟩
  obtain ⟨n, hn, hlen⟩ := length_of_numRawChunks hcount
  have hzero : rawLocs.getD 0 0 = 0 := by
    rw [List.getD_eq_getElem?_getD, ← List.head?_eq_getElem?, hfirst, Option.getD_some]
  exact ⟨_, prepareAugmentedLocs_eq hn hlen, layoutAlgebra hlen hzero hsorted⟩

/-- Two documents, the first one empty and the second without a zip prompt. -/
theorem augmented_layout_two :
    (∃ locs, prepareAugmentedLocsForRequest [0, 2, 2, 5, 9, 9, 10] = some locs ∧
      LayoutAlgebra [0, 2, 2, 5, 9, 9, 10] locs) ∧
    prepareAugmentedLocsForRequest [0, 2, 5, 9] = none :=
  ⟨(augmented_layout_algebra [0, 2, 2, 5, 9, 9, 10]).1 rfl (by decide) (by decide),
    (augmented_layout_algebra [0, 2, 5, 9]).2 (by decide)⟩

end QCFuse.Guarantees
