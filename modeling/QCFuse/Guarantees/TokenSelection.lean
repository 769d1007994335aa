import QCFuse.Guarantees.AugmentedLayouts
import QCFuse.Guarantees.BatchCoordinates
import QCFuse.Library.Largest
import QCFuse.Source.IndiceSelect

/-!
# What `IndiceSelector.select` returns for a request

The best-scored tokens of the RAG span within the budget and the whole question. The row the logits
processor reads is the last one selected: the request's last token, unless the question is empty
and the last RAG token is left out.
-/

set_option autoImplicit false

namespace QCFuse.Guarantees

open QCFuse.Library QCFuse.Source

/-- The chunk boundaries of a request. -/
structure BlendLayout (loc : List Int) : Prop where
  first : loc.head? = some 0
  chunk : 2 ≤ loc.length
  sorted : loc.Pairwise (· ≤ ·)

/-- What lies between the first chunk and the question. -/
def ragRange (loc : List Int) : Int × Int :=
  if 4 ≤ loc.length then (loc.getD 1 0, (queryRange loc).1) else ((queryRange loc).1, (queryRange loc).1)

/-- The RAG tokens to select. -/
def ragBudget (loc : List Int) (ratio : Rat) : Int :=
  if ratio ≤ 0 ∨ (ragRange loc).2 ≤ (ragRange loc).1 then 0
  else min ((ragRange loc).2 - (ragRange loc).1)
    (max 1 ⌊(((ragRange loc).2 - (ragRange loc).1 : Int) : Rat) * ratio⌋)

section Statements

variable {α : Type} [LinearOrder α]

/-- What is documented of `torch.topk`: the indices of `k` largest entries. -/
def ChoosesLargest (topk : TopK α) : Prop :=
  ∀ (score : Nat → α) (n k : Nat), k ≤ n → Largest score n k (topk.run ((List.range n).map score) k)

/-- The indices and lengths selected for one request. -/
structure SelectsBest (loc : List Int) (ratio : Rat) (score : Int → α) (indices : List Int)
    (lens : List Nat) : Prop where
  increasing : indices.Pairwise (· < ·)
  question : pyRange (queryRange loc).1 (queryRange loc).2 <:+ indices
  covered : ∀ t ∈ indices, Inside (ragRange loc) t ∨ Inside (queryRange loc) t
  noSystem : loc.length ≠ 2 → ∀ t ∈ indices, ¬ Inside (loc.getD 0 0, loc.getD 1 0) t
  count : ((indices.filter fun t => decide (Inside (ragRange loc) t)).length : Int) = ragBudget loc ratio
  best : ∀ t u, Inside (ragRange loc) t → Inside (ragRange loc) u → t ∈ indices → u ∉ indices →
    score u ≤ score t
  lens : lens = [indices.length]

/-- What the first round and the request itself leave for one request. -/
structure ReadyForOne (input : SelectInput α) : Prop where
  mode : input.selectMode = some .attn
  cuda : input.oldIsCuda = some true
  lens : ∃ qLen qOffset queryKLen, input.qLens = [qLen] ∧ input.qOffsets = [qOffset] ∧
    input.queryKLens = [queryKLen] ∧ 0 ≤ queryKLen

/-- The selection as claimed, and the row read is that of the last token. -/
def SelectionKept (topk : TopK α) (loc : List Int) (input : SelectInput α) : Prop :=
  ∃ indices lens, select topk (prepareBlendLocs [loc]) input = .ok (indices, lens) ∧
    SelectsBest loc input.ratio (input.score 0) indices lens ∧
    lastRows indices lens = .ok [(queryRange loc).2 - 1]

/-- Fewer than the budget of the other RAG tokens score at least as high as the last one. -/
def LastRagSelected (loc : List Int) (ratio : Rat) (score : Int → α) : Prop :=
  (ragRange loc).1 < (ragRange loc).2 ∧
    ((rivals (fun i => score ((ragRange loc).1 + i))
      ((ragRange loc).2 - (ragRange loc).1 - 1).toNat).length : Int) < ragBudget loc ratio

end Statements

/-! ## The region of a request alone -/

theorem cumsumFrom_diff (base : Int) (rest : List Int) :
    base :: cumsumFrom base (diff (base :: rest)) = base :: rest := by
  induction rest generalizing base with
  | nil => rfl
  | cons next rest ih => rw [diff_cons_cons, cumsumFrom, add_sub_cancel, ih]

theorem pyIndex_loc {loc : List Int} {i : Nat} (hi : i < loc.length) : pyIndex loc (i : Int) = .ok (loc.getD i 0) := by
  rw [pyIndex_ok_iff, List.getD_eq_getElem?_getD, List.getElem?_eq_getElem hi, Option.getD_some]

section Region

variable {loc : List Int} (h : BlendLayout loc)
include h

theorem chunkLocList_single : (prepareBlendLocs [loc]).chunkLocList = loc := by
  obtain ⟨hfirst, -, -⟩ := h
  cases loc with
  | nil => cases hfirst
  | cons first rest =>
    obtain rfl : first = 0 := Option.some.inj hfirst
    rw [prepareBlendLocs, List.flatMap_singleton, cumsumLens, cumsumFrom_diff]

theorem getD_loc_zero : loc.getD 0 0 = 0 := by
  rw [List.getD_eq_getElem?_getD, ← List.head?_eq_getElem?, h.first, Option.getD_some]

/-- The boundaries in increasing order: first chunk, RAG span, question. -/
theorem regions_ordered : 0 ≤ (ragRange loc).1 ∧ (ragRange loc).1 ≤ (ragRange loc).2 ∧
    (ragRange loc).2 = (queryRange loc).1 ∧ (queryRange loc).1 ≤ (queryRange loc).2 ∧
      (loc.length ≠ 2 → loc.getD 1 0 ≤ (ragRange loc).1) := by
  have hchunk := h.chunk
  have hzero := getD_loc_zero h
  have hfirst : loc.getD 0 0 ≤ loc.getD 1 0 := getD_mono h.sorted (by omega) (by omega)
  have hsecond : loc.getD 0 0 ≤ loc.getD (loc.length - 2) 0 := getD_mono h.sorted (by omega) (by omega)
  have hquestion : loc.getD (loc.length - 2) 0 ≤ loc.getD (loc.length - 1) 0 :=
    getD_mono h.sorted (by omega) (by omega)
  have hbefore : loc.length ≠ 2 → loc.getD 1 0 ≤ loc.getD (loc.length - 2) 0 :=
    fun hne => getD_mono h.sorted (by omega) (by omega)
  rw [hzero] at hfirst hsecond
  unfold ragRange queryRange
  split
  next hlen => exact ⟨hfirst, hbefore (by omega), rfl, hquestion, fun _ => le_refl _⟩
  next => exact ⟨hsecond, le_refl _, rfl, hquestion, hbefore⟩

theorem getRequestRegion_single :
    getRequestRegion (prepareBlendLocs [loc]).chunkLocList
      (computeRequestBoundaries (prepareBlendLocs [loc])).2 0 =
      .ok ⟨0, (queryRange loc).1, (queryRange loc).2, (ragRange loc).1,
        (ragRange loc).2 - (ragRange loc).1⟩ := by
  have hchunk := h.chunk
  obtain ⟨n, hn⟩ : ∃ n, loc.length = n + 2 := ⟨loc.length - 2, by omega⟩
  have hboundaries : (computeRequestBoundaries (prepareBlendLocs [loc])).2 = [0, (n : Int) + 1] := by
    simp only [prepareBlendLocs, List.map_cons, List.map_nil, cumsumFrom, computeRequestBoundaries]
    congr 2
    omega
  have hstart : pyIndex loc 0 = .ok (loc.getD 0 0) := pyIndex_loc (i := 0) (by omega)
  rw [getD_loc_zero h] at hstart
  have hquest := pyIndex_loc (i := n) (show n < loc.length by omega)
  have hend : pyIndex loc ((n : Int) + 1) = .ok (loc.getD (n + 1) 0) :=
    pyIndex_loc (i := n + 1) (by omega)
  have hone : (n : Int) + 1 - 1 = (n : Nat) := by omega
  have hfirst : pyIndex [(0 : Int), n + 1] 0 = .ok 0 := rfl
  have hsecond : pyIndex [(0 : Int), n + 1] 1 = .ok ((n : Int) + 1) := rfl
  rw [chunkLocList_single h, hboundaries]
  simp only [getRequestRegion, Nat.cast_zero, Nat.cast_one, Nat.zero_add, hfirst, hsecond, bind,
    Except.bind, hone, hquest, hend, hstart, Int.zero_add, ragRange, queryRange, hn,
    Nat.add_sub_cancel, show n + 2 - 1 = n + 1 by omega]
  by_cases hrag : (1 : Int) < n
  · have hsecondChunk : pyIndex loc 1 = .ok (loc.getD 1 0) :=
      pyIndex_loc (i := 1) (by omega)
    simp only [if_pos hrag, if_pos (show 4 ≤ n + 2 by omega), hsecondChunk]
    rfl
  · simp only [if_neg hrag, if_neg (show ¬ 4 ≤ n + 2 by omega), sub_self]
    rfl

end Region

/-! ## The selection -/

section Selection

variable {α : Type} (topk : TopK α) (loc : List Int) (ratio : Rat) (score : Int → α)

/-- The indices chosen inside the RAG span. -/
def chosenRag : List Nat :=
  topk.run ((List.range ((ragRange loc).2 - (ragRange loc).1).toNat).map fun i =>
    score ((ragRange loc).1 + (i : Nat))) (ragBudget loc ratio).toNat

/-- The RAG tokens selected, in order. -/
def selectedRag : List Int :=
  if ratio ≤ 0 ∨ (ragRange loc).2 ≤ (ragRange loc).1 then []
  else ((chosenRag topk loc ratio score).map fun i : Nat => (i : Int) + (ragRange loc).1).insertionSort (· ≤ ·)

/-- The selection of a request. -/
def selection : List Int :=
  selectedRag topk loc ratio score ++ pyRange (queryRange loc).1 (queryRange loc).2

variable {topk loc ratio score}

theorem ragBudget_bounds (loc : List Int) (ratio : Rat) : 0 ≤ ragBudget loc ratio ∧
    ((ragRange loc).1 ≤ (ragRange loc).2 → ragBudget loc ratio ≤ (ragRange loc).2 - (ragRange loc).1) := by
  unfold ragBudget
  split <;> omega

theorem importance_eq {queryKLen : Int} (hkeys : 0 ≤ queryKLen) (h : BlendLayout loc) :
    attFullSoftmaxImportance score ((queryRange loc).1 - 0 + queryKLen) ((ragRange loc).1 - 0)
      ((ragRange loc).2 - (ragRange loc).1) =
      (List.range ((ragRange loc).2 - (ragRange loc).1).toNat).map fun i =>
        score ((ragRange loc).1 + (i : Nat)) := by
  obtain ⟨hnonneg, hrag, hends, -, -⟩ := regions_ordered h
  have hstart : max 0 (min ((ragRange loc).1 - 0) ((queryRange loc).1 - 0 + queryKLen)) =
      (ragRange loc).1 := by omega
  unfold attFullSoftmaxImportance
  dsimp only
  rw [hstart, pyRange, List.map_map, add_sub_cancel_left]
  have hlen : (max 0 (min ((ragRange loc).2 - (ragRange loc).1)
      ((queryRange loc).1 - 0 + queryKLen - (ragRange loc).1))).toNat =
      ((ragRange loc).2 - (ragRange loc).1).toNat := by omega
  rw [hlen]
  rfl

theorem computeBudget_eq (hratio : ¬ ratio ≤ 0) (hrag : ¬ (ragRange loc).2 ≤ (ragRange loc).1) :
    computeBudget ((ragRange loc).2 - (ragRange loc).1) ratio = ragBudget loc ratio := by
  rw [computeBudget, if_neg hratio, ragBudget, if_neg (not_or.mpr ⟨hratio, hrag⟩)]

theorem torchArange_question (h : BlendLayout loc) : torchArange (queryRange loc).1 (queryRange loc).2 =
    .ok (pyRange (queryRange loc).1 (queryRange loc).2) := by
  rw [torchArange, if_neg (not_lt.mpr (regions_ordered h).2.2.2.1)]

theorem fuseRequest_single (h : BlendLayout loc) {input : SelectInput α} (hready : ReadyForOne input)
    (hratio : ¬ input.ratio ≤ 0) :
    fuseRequest topk (prepareBlendLocs [loc]) input (computeRequestBoundaries (prepareBlendLocs [loc])).2 0 =
      .ok (selection topk loc input.ratio (input.score 0)) := by
  obtain ⟨qLen, qOffset, queryKLen, hqLens, hqOffsets, hkLens, hkeys⟩ := hready.lens
  have hone : ∀ x : Int, pyIndex [x] ((0 : Nat) : Int) = .ok x := fun _ => rfl
  rw [fuseRequest, getRequestRegion_single h, hqLens, hqOffsets, hkLens]
  simp only [hone, bind, Except.bind, torchArange_question h, importance_eq hkeys h, List.length_map,
    List.length_range]
  by_cases hrag : (ragRange loc).2 ≤ (ragRange loc).1
  · rw [if_neg (by omega), selection, selectedRag, if_pos (.inr hrag)]
    rfl
  · have hbudget := computeBudget_eq hratio hrag
    have hbounds : 0 < ragBudget loc input.ratio ∧
        ragBudget loc input.ratio ≤ (ragRange loc).2 - (ragRange loc).1 := by
      rw [← hbudget, computeBudget, if_neg hratio]
      omega
    have hmin : (min (ragBudget loc input.ratio)
        ((((ragRange loc).2 - (ragRange loc).1).toNat : Nat) : Int)).toNat =
        (ragBudget loc input.ratio).toNat := by omega
    rw [if_pos (by omega), hbudget, if_pos hbounds.1, hmin, selection, selectedRag,
      if_neg (not_or.mpr ⟨hratio, hrag⟩), chosenRag]
    rfl

theorem select_single (h : BlendLayout loc) {input : SelectInput α} (hready : ReadyForOne input) :
    select topk (prepareBlendLocs [loc]) input =
      .ok (selection topk loc input.ratio (input.score 0),
        [(selection topk loc input.ratio (input.score 0)).length]) := by
  have hnum : (computeRequestBoundaries (prepareBlendLocs [loc])).1 = 1 := rfl
  unfold select
  by_cases hratio : input.ratio ≤ 0
  · rw [if_pos hratio, computeQueryOnly]
    simp only [hnum, List.range_one, List.mapM_cons, List.mapM_nil,
      getRequestRegion_single h, torchArange_question h, bind, Except.bind, pure, Except.pure,
      buildFinalOutput, List.flatten_cons, List.flatten_nil, List.append_nil, List.map_cons, List.map_nil]
    rw [selection, selectedRag, if_pos (.inl hratio), List.nil_append]
  · rw [if_neg hratio, if_neg (not_not.mpr hready.mode), if_neg (by rw [hready.cuda]; rintro ⟨⟩),
      computeLayerFusion]
    simp only [hready.cuda, hnum, List.range_one, List.mapM_cons, List.mapM_nil,
      fuseRequest_single h hready hratio, bind, Except.bind, pure, Except.pure, buildFinalOutput,
      List.flatten_cons, List.flatten_nil, List.append_nil, List.map_cons, List.map_nil]
    rfl

/-! ### What is selected -/

theorem mem_selectedRag {t : Int} : t ∈ selectedRag topk loc ratio score ↔
    ¬ (ratio ≤ 0 ∨ (ragRange loc).2 ≤ (ragRange loc).1) ∧
      ∃ i ∈ chosenRag topk loc ratio score, (i : Int) + (ragRange loc).1 = t := by
  rw [selectedRag]
  split
  next hnone => exact ⟨fun h => absurd h List.not_mem_nil, fun h => absurd hnone h.1⟩
  next hsome =>
    rw [(List.perm_insertionSort _ _).mem_iff, List.mem_map]
    exact ⟨fun h => ⟨hsome, h⟩, And.right⟩

variable [LinearOrder α]

theorem chosenRag_largest (htopk : ChoosesLargest topk) (hrag : (ragRange loc).1 ≤ (ragRange loc).2) :
    Largest (fun i => score ((ragRange loc).1 + (i : Nat))) ((ragRange loc).2 - (ragRange loc).1).toNat
      (ragBudget loc ratio).toNat (chosenRag topk loc ratio score) := by
  have hbounds := ragBudget_bounds loc ratio
  have hle := hbounds.2 hrag
  exact htopk _ _ _ (by omega)

theorem inside_selectedRag (htopk : ChoosesLargest topk) {t : Int}
    (ht : t ∈ selectedRag topk loc ratio score) : Inside (ragRange loc) t := by
  obtain ⟨hsome, i, hi, rfl⟩ := mem_selectedRag.mp ht
  have hbound := (chosenRag_largest htopk (by omega)).bound i hi
  exact ⟨by omega, by omega⟩

theorem selectedRag_increasing (htopk : ChoosesLargest topk) :
    (selectedRag topk loc ratio score).Pairwise (· < ·) := by
  rw [selectedRag]
  split
  next => exact .nil
  next hsome =>
    have hnodup : (chosenRag topk loc ratio score).Nodup :=
      (chosenRag_largest htopk (by omega)).nodup
    have hperm := List.perm_insertionSort (· ≤ ·)
      ((chosenRag topk loc ratio score).map fun i : Nat => (i : Int) + (ragRange loc).1)
    have hsorted := List.pairwise_insertionSort (· ≤ ·)
      ((chosenRag topk loc ratio score).map fun i : Nat => (i : Int) + (ragRange loc).1)
    have hne := hperm.nodup_iff.mpr (hnodup.map fun i j hij => Int.ofNat.inj (add_right_cancel hij))
    exact (hsorted.and hne).imp fun hpair => lt_of_le_of_ne hpair.1 hpair.2

theorem length_selectedRag (htopk : ChoosesLargest topk) :
    ((selectedRag topk loc ratio score).length : Int) = ragBudget loc ratio := by
  have hbounds := ragBudget_bounds loc ratio
  rw [selectedRag]
  split
  next hnone => rw [ragBudget, if_pos hnone, List.length_nil, Nat.cast_zero]
  next hsome =>
    rw [(List.perm_insertionSort _ _).length_eq, List.length_map,
      (chosenRag_largest htopk (by omega)).length]
    omega

/-- Nothing left out of the RAG span scores higher than what is selected. -/
theorem selectedRag_best (htopk : ChoosesLargest topk) {t u : Int}
    (ht : t ∈ selectedRag topk loc ratio score) (hu : Inside (ragRange loc) u)
    (hout : u ∉ selectedRag topk loc ratio score) : score u ≤ score t := by
  obtain ⟨hsome, i, hi, rfl⟩ := mem_selectedRag.mp ht
  obtain ⟨hlo, hhi⟩ := hu
  obtain ⟨j, rfl⟩ : ∃ j : Nat, u = (j : Int) + (ragRange loc).1 :=
    ⟨(u - (ragRange loc).1).toNat, by omega⟩
  have hnot : j ∉ chosenRag topk loc ratio score :=
    fun hj => hout (mem_selectedRag.mpr ⟨hsome, j, hj, rfl⟩)
  have hle := (chosenRag_largest htopk (by omega)).largest i hi j (by omega) hnot
  rw [Int.add_comm, Int.add_comm (i : Int)]
  exact hle

theorem selection_best (h : BlendLayout loc) (htopk : ChoosesLargest topk) :
    SelectsBest loc ratio score (selection topk loc ratio score)
      [(selection topk loc ratio score).length] := by
  obtain ⟨hnonneg, hrag, hends, hquestion, hfirst⟩ := regions_ordered h
  have hin : ∀ t ∈ selectedRag topk loc ratio score, Inside (ragRange loc) t :=
    fun t => inside_selectedRag htopk
  have hmem : ∀ t ∈ selection topk loc ratio score,
      t ∈ selectedRag topk loc ratio score ∨ Inside (queryRange loc) t := fun t ht =>
    (List.mem_append.mp ht).imp_right fun hq => mem_pyRange.mp hq
  refine ⟨?_, List.suffix_append _ _, fun t ht => (hmem t ht).imp_left (hin t), ?_, ?_, ?_, rfl⟩
  · refine List.pairwise_append.mpr ⟨selectedRag_increasing htopk, pairwise_pyRange _ _, fun t ht u hu => ?_⟩
    obtain ⟨hlo, hhi⟩ := hin t ht
    have := mem_pyRange.mp hu
    omega
  · rintro hmany t ht ⟨hlo, hhi⟩
    have := hfirst hmany
    dsimp only at hhi
    rcases hmem t ht with hsel | ⟨hq, -⟩
    · obtain ⟨hr, -⟩ := hin t hsel
      omega
    · omega
  · have hkept : (selectedRag topk loc ratio score).filter (fun t => decide (Inside (ragRange loc) t)) =
        selectedRag topk loc ratio score :=
      List.filter_eq_self.mpr fun t ht => decide_eq_true (hin t ht)
    have hnone : (pyRange (queryRange loc).1 (queryRange loc).2).filter
        (fun t => decide (Inside (ragRange loc) t)) = [] := by
      refine List.filter_eq_nil_iff.mpr fun t ht hrange => ?_
      obtain ⟨-, hhi⟩ := of_decide_eq_true hrange
      have := mem_pyRange.mp ht
      omega
    rw [selection, List.filter_append, hkept, hnone, List.append_nil, length_selectedRag htopk]
  · intro t u ht hu hsel hout
    refine selectedRag_best htopk ?_ hu fun hu' => hout (List.mem_append_left _ hu')
    refine (hmem t hsel).resolve_right fun ⟨hq, _⟩ => ?_
    obtain ⟨-, hhi⟩ := ht
    omega

end Selection

/-! ## The row that is read -/

theorem lastRows_single (indices : List Int) (t : Int) :
    lastRows indices [indices.length] = .ok [t] ↔ indices.getLast? = some t := by
  have hindex : blendLastIndex [indices.length] = [(indices.length : Int) - 1] := by
    simp [blendLastIndex, cumsumFrom]
  rw [lastRows, hindex, List.getLast?_eq_getElem?]
  cases indices with
  | nil => constructor <;> rintro ⟨⟩
  | cons first rest =>
    have hlast : (((first :: rest).length : Nat) : Int) - 1 = (rest.length : Nat) := by
      rw [List.length_cons]
      omega
    rw [hlast, List.length_cons, Nat.add_sub_cancel, ← pyIndex_ok_iff]
    cases hrow : pyIndex (first :: rest) (rest.length : Int) with
    | error e => simp [hrow, bind, Except.bind]
    | ok row => simp [hrow, bind, Except.bind, pure, Except.pure]

theorem getLast?_pyRange {a b : Int} (h : a < b) : (pyRange a b).getLast? = some (b - 1) := by
  rw [List.getLast?_eq_getElem?, length_pyRange]
  have hk : (((b - a).toNat - 1 : Nat) : Int) < b - a := by omega
  have hget := getElem?_range hk
  rw [show pyRange a b = Int.range a b from rfl, hget]
  congr 1
  omega

/-- Of increasing integers below a bound the last one is just below it if any is. -/
theorem getLast?_below {xs : List Int} {b : Int} (hsorted : xs.Pairwise (· < ·)) (hbelow : ∀ x ∈ xs, x < b) :
    xs.getLast? = some (b - 1) ↔ b - 1 ∈ xs := by
  refine ⟨List.mem_of_getLast?, fun hmem => ?_⟩
  obtain ⟨front, last, rfl⟩ := (List.eq_nil_or_concat xs).resolve_left (List.ne_nil_of_mem hmem)
  rw [List.concat_eq_append] at hsorted hbelow hmem ⊢
  rw [List.getLast?_append, List.getLast?_singleton, Option.some_or]
  have hlast := hbelow last (List.mem_append_right _ (List.mem_singleton_self last))
  rcases List.mem_append.mp hmem with hfront | hend
  · have := (List.pairwise_append.mp hsorted).2.2 _ hfront last (List.mem_singleton_self last)
    omega
  · rw [List.mem_singleton.mp hend]

section LastRow

variable {α : Type} [LinearOrder α] {loc : List Int} {ratio : Rat} {score : Int → α}

/-- `torch.topk` preferring the lower of two indices with equal scores. -/
def firstLargest (fill : α) : TopK α where
  run xs k := (ranked (fun i => xs.getD i fill) xs.length).take k

theorem firstLargest_run (fill : α) (score : Nat → α) (n k : Nat) :
    (firstLargest fill).run ((List.range n).map score) k =
      (ranked (fun i => ((List.range n).map score).getD i fill) n).take k := by
  rw [firstLargest]
  dsimp only
  rw [List.length_map, List.length_range]

omit [LinearOrder α] in
theorem firstLargest_scores (fill : α) (score : Nat → α) {n i : Nat} (hi : i < n) :
    ((List.range n).map score).getD i fill = score i := by
  rw [List.getD_eq_getElem?_getD, List.getElem?_map, List.getElem?_range hi]
  rfl

theorem firstLargest_chooses (fill : α) : ChoosesLargest (firstLargest fill) := by
  intro score n k hk
  have hchosen := largest_take_ranked (fun i => ((List.range n).map score).getD i fill) hk
  rw [firstLargest_run]
  exact hchosen.congr fun i hi => firstLargest_scores fill score hi

/-- Whatever is done with equal scores, the last RAG token is selected exactly if it has few rivals. -/
theorem lastRag_iff (hrag : (ragRange loc).1 ≤ (ragRange loc).2) :
    (∀ topk : TopK α, ChoosesLargest topk → (ragRange loc).2 - 1 ∈ selectedRag topk loc ratio score) ↔
      LastRagSelected loc ratio score := by
  constructor
  · intro h
    have hin := h (firstLargest (score 0)) (firstLargest_chooses (score 0))
    obtain ⟨hlo, hhi⟩ := inside_selectedRag (firstLargest_chooses (score 0)) hin
    obtain ⟨-, i, hi, heq⟩ := mem_selectedRag.mp hin
    refine ⟨by omega, ?_⟩
    by_contra hmany
    obtain ⟨last, hlen⟩ : ∃ last : Nat, ((ragRange loc).2 - (ragRange loc).1).toNat = last + 1 :=
      ⟨((ragRange loc).2 - (ragRange loc).1).toNat - 1, by omega⟩
    have hprev : ((ragRange loc).2 - (ragRange loc).1 - 1).toNat = last := by omega
    rw [hprev] at hmany
    obtain rfl : i = last := by omega
    rw [chosenRag, hlen, firstLargest_run] at hi
    have hscores : ∀ j ≤ i, score ((ragRange loc).1 + (j : Nat)) =
        ((List.range (i + 1)).map fun j => score ((ragRange loc).1 + (j : Nat))).getD j (score 0) :=
      fun j hj => (firstLargest_scores (score 0) (fun j => score ((ragRange loc).1 + (j : Nat)))
        (Nat.lt_succ_of_le hj)).symm
    refine last_not_mem_take_ranked ?_ hi
    rw [← rivals_congr hscores]
    omega
  · rintro ⟨hpos, hfew⟩ topk htopk
    have hsome : ¬ (ratio ≤ 0 ∨ (ragRange loc).2 ≤ (ragRange loc).1) := by
      intro hnone
      rw [ragBudget, if_pos hnone] at hfew
      omega
    obtain ⟨last, hlen⟩ : ∃ last : Nat, ((ragRange loc).2 - (ragRange loc).1).toNat = last + 1 :=
      ⟨((ragRange loc).2 - (ragRange loc).1).toNat - 1, by omega⟩
    have hprev : ((ragRange loc).2 - (ragRange loc).1 - 1).toNat = last := by omega
    rw [hprev] at hfew
    have hchosen : Largest (fun i => score ((ragRange loc).1 + (i : Nat))) (last + 1)
        (ragBudget loc ratio).toNat (chosenRag topk loc ratio score) := by
      rw [← hlen]
      exact chosenRag_largest htopk hrag
    exact mem_selectedRag.mpr ⟨hsome, last, hchosen.mem_last (by omega), by omega⟩

variable {topk : TopK α} {input : SelectInput α}

theorem selectionKept_iff_last (h : BlendLayout loc) (hready : ReadyForOne input)
    (htopk : ChoosesLargest topk) : SelectionKept topk loc input ↔
      (selection topk loc input.ratio (input.score 0)).getLast? = some ((queryRange loc).2 - 1) := by
  rw [← lastRows_single]
  constructor
  · rintro ⟨indices, lens, hselect, -, hlast⟩
    rw [select_single h hready] at hselect
    cases hselect
    exact hlast
  · exact fun hlast => ⟨_, _, select_single h hready, selection_best h htopk, hlast⟩

theorem selectionKept_question (h : BlendLayout loc) (hready : ReadyForOne input)
    (htopk : ChoosesLargest topk) (hquestion : (queryRange loc).1 < (queryRange loc).2) :
    SelectionKept topk loc input := by
  rw [selectionKept_iff_last h hready htopk, selection, List.getLast?_append, getLast?_pyRange hquestion,
    Option.some_or]

/-- Without a question the last row is a RAG token's. -/
theorem selectionKept_empty (h : BlendLayout loc) (hready : ReadyForOne input)
    (htopk : ChoosesLargest topk) (hempty : ¬ (queryRange loc).1 < (queryRange loc).2) :
    SelectionKept topk loc input ↔
      (ragRange loc).2 - 1 ∈ selectedRag topk loc input.ratio (input.score 0) := by
  obtain ⟨-, -, hends, hquestion, -⟩ := regions_ordered h
  have hlast : (queryRange loc).2 = (ragRange loc).2 := by omega
  rw [selectionKept_iff_last h hready htopk, selection, pyRange_eq_nil (by omega), List.append_nil, hlast]
  exact getLast?_below (selectedRag_increasing htopk) fun t ht => (inside_selectedRag htopk ht).2

end LastRow

/-- For every layout, scores and ratio: the selection is as claimed, and the row read is that of the
request's last token exactly if the question has tokens or the last RAG token is selected. -/
theorem selection_kept_iff {α : Type} [LinearOrder α] {loc : List Int} (h : BlendLayout loc)
    {input : SelectInput α} (hready : ReadyForOne input) :
    (∀ topk : TopK α, ChoosesLargest topk → SelectionKept topk loc input) ↔
      (queryRange loc).1 < (queryRange loc).2 ∨ LastRagSelected loc input.ratio (input.score 0) := by
  by_cases hquestion : (queryRange loc).1 < (queryRange loc).2
  · exact ⟨fun _ => .inl hquestion,
      fun _ topk htopk => selectionKept_question h hready htopk hquestion⟩
  · rw [or_iff_right hquestion, ← lastRag_iff (regions_ordered h).2.1]
    exact forall₂_congr fun topk htopk => selectionKept_empty h hready htopk hquestion

/-- Half of the RAG tokens, where earlier ones score higher. -/
def halfInput : SelectInput Int := ⟨1 / 2, some .attn, some true, [1], [2], [3], fun _ key => -key⟩

theorem halfInput_ready : ReadyForOne halfInput := ⟨rfl, rfl, 1, 2, 3, rfl, rfl, rfl, by decide⟩

/-- Two system tokens, three RAG tokens and a question of one. -/
theorem selection_kept_iff_question :
    (∀ topk : TopK Int, ChoosesLargest topk → SelectionKept topk [0, 2, 5, 6] halfInput) ↔
      (queryRange [0, 2, 5, 6]).1 < (queryRange [0, 2, 5, 6]).2 ∨
        LastRagSelected [0, 2, 5, 6] halfInput.ratio (halfInput.score 0) :=
  selection_kept_iff ⟨rfl, by decide, by decide⟩ halfInput_ready

/-- With an empty question token 2 is selected alone, and its row is read for token 4. -/
theorem selection_empty_question : ¬ SelectionKept (firstLargest 0) [0, 2, 5, 5] halfInput := by
  intro hkept
  rw [selectionKept_empty ⟨rfl, by decide, by decide⟩ halfInput_ready (firstLargest_chooses 0)
    (by decide)] at hkept
  obtain ⟨-, i, hi, heq⟩ := mem_selectedRag.mp hkept
  have hrange : ragRange [0, 2, 5, 5] = (2, 5) := rfl
  rw [hrange] at heq
  obtain rfl : i = 2 := by omega
  rw [chosenRag, hrange, firstLargest_run] at hi
  refine last_not_mem_take_ranked ?_ hi
  decide +kernel

end QCFuse.Guarantees
