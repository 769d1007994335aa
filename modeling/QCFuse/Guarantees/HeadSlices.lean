import QCFuse.Library.Slices
import QCFuse.Source.KvSlices

/-!
# Head slices over the token slots of a decode rank

What the selected prefill ranks send for one request, buffer by buffer. Where a decode rank collects
from several prefill ranks, `dst_head_start_offset` counts heads over the whole prefill group and not
over the ranks of this decode rank, so only the first decode rank of its group is served right.
-/

set_option autoImplicit false

namespace QCFuse.Guarantees

open QCFuse.Library QCFuse.Source

/-- A prefill group and a decode rank with different attention TP sizes, and one request's pages. Every
buffer holds `headLen` bytes of each head of the rank for a token. -/
structure HeadDeployment where
  prefillTp : Nat
  decodeTp : Nat
  heads : Nat
  headLen : Nat
  pageSize : Nat
  layers : Nat
  startLayer : Nat
  /-- By rank in the attention TP group. -/
  kvArgs : Nat → KvArgs
  dstKvPtrs : List Nat
  dstTpRank : Nat
  prefillKvIndices : List Nat
  dstKvIndices : List Nat
  heads_pos : 0 < heads
  headLen_pos : 0 < headLen
  pageSize_pos : 0 < pageSize
  prefillTp_dvd : prefillTp ∣ heads
  decodeTp_dvd : decodeTp ∣ heads
  multiple : prefillTp ∣ decodeTp ∨ decodeTp ∣ prefillTp
  different : prefillTp ≠ decodeTp
  engineRank_eq : ∀ k < prefillTp, (kvArgs k).engineRank % prefillTp = k
  kvHeadNum_eq : ∀ k < prefillTp, (kvArgs k).kvHeadNum = heads / prefillTp
  kvPageSize_eq : ∀ k < prefillTp, (kvArgs k).pageSize = pageSize
  kvItemLens_eq : ∀ k < prefillTp,
    (kvArgs k).kvItemLens.head? = some (pageSize * (heads / prefillTp * headLen))
  kvDataPtrs_length : ∀ k < prefillTp, (kvArgs k).kvDataPtrs.length = 2 * layers
  startLayer_eq : ∀ k < prefillTp, (kvArgs k).prefillStartLayer = startLayer
  dst_layers : startLayer + layers ≤ dstKvPtrs.length / 2
  /-- The transfer worker cuts the source pages to the destination pages. -/
  indices_le : prefillKvIndices.length ≤ dstKvIndices.length

namespace HeadDeployment

variable (dep : HeadDeployment)

/-- KV heads of a prefill rank. -/
def srcHeads : Nat := dep.heads / dep.prefillTp

/-- KV heads of a decode rank. -/
def dstHeads : Nat := dep.heads / dep.decodeTp

/-- The decode rank in its attention TP group. -/
def dstRank : Nat := dep.dstTpRank % dep.decodeTp

/-- The prefill ranks the decode rank selects. -/
def targets : List Nat := targetTpRanks dep.decodeTp dep.prefillTp dep.dstTpRank

/-- What prefill rank `k` sends. -/
def sends (k : Nat) : Except SliceFailure (List (List Transfer)) :=
  sendKvcacheSlice dep.prefillTp (dep.kvArgs k) dep.prefillKvIndices dep.dstKvPtrs dep.dstKvIndices
    dep.dstTpRank dep.decodeTp (dep.pageSize * (dep.dstHeads * dep.headLen))

/-- Where a head of a token slot starts in a buffer of `heads` heads a token. -/
def headAddr (ptr heads page slot head : Nat) : Nat :=
  ptr + page * (dep.pageSize * (heads * dep.headLen)) + slot * (heads * dep.headLen) + head * dep.headLen

/-- Where buffer `b` of a rank of the stage goes: K layers, then V layers, from the stage's first on. -/
def dstPtr (b : Nat) : Nat :=
  if b < dep.layers then dep.dstKvPtrs.getD (dep.startLayer + b) 0
  else dep.dstKvPtrs.getD (dep.dstKvPtrs.length / 2 + dep.startLayer + (b - dep.layers)) 0

def srcPtr (k b : Nat) : Nat := (dep.kvArgs k).kvDataPtrs.getD b 0

/-- The transfers into buffer `b`, with the ranks that send them. -/
def transfersTo (b : Nat) : List (Nat × Transfer) :=
  dep.targets.flatMap fun k =>
    match dep.sends k with
    | .ok batches => (batches.getD b []).map fun w => (k, w)
    | .error _ => []

/-- The head of the model that head `h` of the decode rank is. -/
def globalHead (h : Nat) : Nat := dep.dstRank * dep.dstHeads + h

end HeadDeployment

/-- `[w.dst, w.dst + w.length)` meets the `len` bytes at `a`. -/
def Touches (len a : Nat) (w : Transfer) : Prop := w.dst < a + len ∧ a < w.dst + w.length

instance (len a : Nat) (w : Transfer) : Decidable (Touches len a w) := inferInstanceAs (Decidable (_ ∧ _))

/-- Transfer `i * page_size + slot` of every batch stays in that slot of page `i`, and what touches a head
of a page writes all of it, once for each time the page is listed, from the same head of the model. -/
structure CoversHeads (dep : HeadDeployment) : Prop where
  inside : ∀ k ∈ dep.targets, ∃ batches, dep.sends k = .ok batches ∧ batches.length = 2 * dep.layers ∧
    ∀ b < 2 * dep.layers, (batches.getD b []).length = dep.prefillKvIndices.length * dep.pageSize ∧
      ∀ i < dep.prefillKvIndices.length, ∀ slot < dep.pageSize,
        ∃ w, (batches.getD b [])[i * dep.pageSize + slot]? = some w ∧
          dep.headAddr (dep.dstPtr b) dep.dstHeads (dep.dstKvIndices.getD i 0) slot 0 ≤ w.dst ∧
          w.dst + w.length ≤
            dep.headAddr (dep.dstPtr b) dep.dstHeads (dep.dstKvIndices.getD i 0) slot dep.dstHeads
  whole : ∀ b < 2 * dep.layers, ∀ page, ∀ slot < dep.pageSize, ∀ h < dep.dstHeads,
    let a := dep.headAddr (dep.dstPtr b) dep.dstHeads page slot h
    ∀ kw ∈ dep.transfersTo b, Touches dep.headLen a kw.2 →
      kw.2.dst ≤ a ∧ a + dep.headLen ≤ kw.2.dst + kw.2.length
  once : ∀ b < 2 * dep.layers, ∀ page, ∀ slot < dep.pageSize, ∀ h < dep.dstHeads,
    let a := dep.headAddr (dep.dstPtr b) dep.dstHeads page slot h
    let rank := dep.globalHead h / dep.srcHeads
    ((dep.transfersTo b).filter fun kw => Touches dep.headLen a kw.2).map
        (fun kw => (kw.1, kw.2.src + (a - kw.2.dst))) =
      ((dep.prefillKvIndices.zip dep.dstKvIndices).filter fun p => p.2 = page).map fun p =>
        (rank, dep.headAddr (dep.srcPtr rank b) dep.srcHeads p.1 slot (dep.globalHead h % dep.srcHeads))

/-! ## What a rank sends -/

theorem mapM_eq_some_map {α β : Type} {f : α → Option β} {g : α → β} (xs : List α)
    (h : ∀ x ∈ xs, f x = some (g x)) : xs.mapM f = some (xs.map g) := by
  induction xs with
  | nil => rfl
  | cons x xs ih =>
    rw [List.mapM_cons, h x List.mem_cons_self, ih fun y hy => h y (List.mem_cons_of_mem x hy)]
    rfl

/-- Indexing two lists up to the length of the first. -/
theorem mapM_getElem?_zip {α β γ : Type} {xs : List α} {ys : List β} (f : α → β → γ)
    (h : xs.length ≤ ys.length) :
    ((List.range xs.length).mapM fun i => do return f (← xs[i]?) (← ys[i]?)) =
      some ((xs.zip ys).map fun p => f p.1 p.2) := by
  induction xs generalizing ys with
  | nil => rfl
  | cons x xs ih =>
    cases ys with
    | nil => simp at h
    | cons y ys =>
      rw [List.length_cons, List.range_succ_eq_map, List.mapM_cons, List.mapM_map]
      have := @ih ys (by simpa using h)
      simp only [Function.comp_def, List.getElem?_cons_succ] at this ⊢
      rw [this]
      rfl

namespace HeadDeployment

variable (dep : HeadDeployment)

/-- The head offsets rank `k` computes. -/
def slice (k : Nat) : HeadSlice := headSlice dep.prefillTp dep.decodeTp k dep.dstRank dep.srcHeads

/-- The transfer of rank `k` for a token slot of a pair of pages. -/
def transfer (k b slot : Nat) (pages : Nat × Nat) : Transfer where
  src := dep.headAddr (dep.srcPtr k b) dep.srcHeads pages.1 slot (dep.slice k).srcHeadStartOffset
  dst := dep.headAddr (dep.dstPtr b) dep.dstHeads pages.2 slot (dep.slice k).dstHeadStartOffset
  length := (dep.slice k).numHeadsToSend * dep.headLen

def batch (k b : Nat) : List Transfer :=
  (dep.prefillKvIndices.zip dep.dstKvIndices).flatMap fun pages =>
    (List.range dep.pageSize).map fun slot => dep.transfer k b slot pages

end HeadDeployment

variable {dep : HeadDeployment} {k b page slot h : Nat}

theorem prefillTp_pos (dep : HeadDeployment) : 0 < dep.prefillTp :=
  Nat.pos_of_dvd_of_pos dep.prefillTp_dvd dep.heads_pos

theorem decodeTp_pos (dep : HeadDeployment) : 0 < dep.decodeTp :=
  Nat.pos_of_dvd_of_pos dep.decodeTp_dvd dep.heads_pos

theorem srcHeads_mul (dep : HeadDeployment) : dep.srcHeads * dep.prefillTp = dep.heads :=
  Nat.div_mul_cancel dep.prefillTp_dvd

theorem dstHeads_mul (dep : HeadDeployment) : dep.dstHeads * dep.decodeTp = dep.heads :=
  Nat.div_mul_cancel dep.decodeTp_dvd

theorem srcHeads_pos (dep : HeadDeployment) : 0 < dep.srcHeads := by
  refine Nat.pos_of_ne_zero fun h => ?_
  have := srcHeads_mul dep
  rw [h, Nat.zero_mul] at this
  exact absurd this.symm (Nat.ne_of_gt dep.heads_pos)

theorem dstHeads_pos (dep : HeadDeployment) : 0 < dep.dstHeads := by
  refine Nat.pos_of_ne_zero fun h => ?_
  have := dstHeads_mul dep
  rw [h, Nat.zero_mul] at this
  exact absurd this.symm (Nat.ne_of_gt dep.heads_pos)

theorem getElem?_getD {xs : List Nat} {i : Nat} (h : i < xs.length) : xs[i]? = some (xs.getD i 0) := by
  rw [List.getD_eq_getElem?_getD, List.getElem?_eq_getElem h, Option.getD_some]

/-- The stage's buffers go to the decode rank's buffers of the same layers. -/
theorem mhaKvPtrsWithPp_eq (hk : k < dep.prefillTp) :
    mhaKvPtrsWithPp (dep.kvArgs k).prefillStartLayer (dep.kvArgs k).kvDataPtrs dep.dstKvPtrs =
      some ((List.range (2 * dep.layers)).map fun b => (dep.srcPtr k b, dep.dstPtr b)) := by
  have hsrc := dep.kvDataPtrs_length k hk
  have hdst := dep.dst_layers
  have hhalf : 2 * dep.layers / 2 = dep.layers := by omega
  have hks : ∀ layer ∈ List.range dep.layers,
      (do return (← ((dep.kvArgs k).kvDataPtrs.take dep.layers)[layer]?,
        ← ((dep.dstKvPtrs.take (dep.startLayer + dep.layers)).drop dep.startLayer)[layer]?) :
          Option (Nat × Nat)) = some (dep.srcPtr k layer, dep.dstPtr layer) := by
    intro layer hlayer
    rw [List.mem_range] at hlayer
    rw [List.getElem?_take_of_lt hlayer, List.getElem?_drop, List.getElem?_take_of_lt (by omega),
      getElem?_getD (by omega), getElem?_getD (by omega)]
    simp [HeadDeployment.srcPtr, HeadDeployment.dstPtr, hlayer]
  have hvs : ∀ layer ∈ List.range dep.layers,
      (do return (← ((dep.kvArgs k).kvDataPtrs.drop dep.layers)[layer]?,
        ← ((dep.dstKvPtrs.take (dep.dstKvPtrs.length / 2 + (dep.startLayer + dep.layers))).drop
          (dep.dstKvPtrs.length / 2 + dep.startLayer))[layer]?) : Option (Nat × Nat)) =
        some (dep.srcPtr k (dep.layers + layer), dep.dstPtr (dep.layers + layer)) := by
    intro layer hlayer
    rw [List.mem_range] at hlayer
    rw [List.getElem?_drop, List.getElem?_drop, List.getElem?_take_of_lt (by omega),
      getElem?_getD (by omega), getElem?_getD (by omega)]
    simp [HeadDeployment.srcPtr, HeadDeployment.dstPtr]
  simp only [mhaKvPtrsWithPp, dep.startLayer_eq k hk, List.length_take, hsrc, hhalf,
    Nat.min_eq_left (by omega : dep.layers ≤ 2 * dep.layers)]
  rw [mapM_eq_some_map _ hks, mapM_eq_some_map _ hvs, Nat.two_mul, List.range_add, List.map_append, List.map_map]
  rfl

theorem processLayerTpAware_eq (dep : HeadDeployment) (k b : Nat) :
    processLayerTpAware dep.pageSize (dep.pageSize * (dep.srcHeads * dep.headLen))
        (dep.pageSize * (dep.dstHeads * dep.headLen)) ((dep.slice k).srcHeadStartOffset * dep.headLen)
        ((dep.slice k).dstHeadStartOffset * dep.headLen) ((dep.slice k).numHeadsToSend * dep.headLen)
        dep.prefillKvIndices dep.dstKvIndices (dep.srcPtr k b, dep.dstPtr b) = some (dep.batch k b) := by
  have hpages := mapM_getElem?_zip (fun prefillPageIdx decodePageIdx =>
    (List.range dep.pageSize).map fun slot => dep.transfer k b slot (prefillPageIdx, decodePageIdx))
    dep.indices_le
  simp only [HeadDeployment.transfer, HeadDeployment.headAddr] at hpages
  simp only [processLayerTpAware, Nat.mul_div_cancel_left _ dep.pageSize_pos]
  rw [hpages]
  simp only [Option.bind_eq_bind, Option.bind_some, Option.pure_def, HeadDeployment.batch, List.flatMap_def]
  rfl

/-- More prefill than decode ranks: `r` prefill ranks hold the heads of one decode rank. -/
theorem dstHeads_eq (h : dep.decodeTp ∣ dep.prefillTp) :
    dep.dstHeads = dep.prefillTp / dep.decodeTp * dep.srcHeads := by
  refine Nat.eq_of_mul_eq_mul_right (decodeTp_pos dep) ?_
  rw [dstHeads_mul, Nat.mul_right_comm, Nat.div_mul_cancel h, Nat.mul_comm, srcHeads_mul]

/-- More decode than prefill ranks: one prefill rank holds the heads of several decode ranks. -/
theorem srcHeads_eq (h : dep.prefillTp ∣ dep.decodeTp) :
    dep.srcHeads = dep.decodeTp / dep.prefillTp * dep.dstHeads := by
  refine Nat.eq_of_mul_eq_mul_right (prefillTp_pos dep) ?_
  rw [srcHeads_mul, Nat.mul_right_comm, Nat.div_mul_cancel h, Nat.mul_comm, dstHeads_mul]

theorem dstHeadsPerRank_eq (dep : HeadDeployment) :
    dep.srcHeads * dep.prefillTp / dep.decodeTp = dep.dstHeads := by
  rw [srcHeads_mul]
  rfl

theorem slice_collects (h : dep.decodeTp < dep.prefillTp) :
    dep.slice k = ⟨0, dep.srcHeads, k * dep.srcHeads⟩ := by
  simp only [HeadDeployment.slice, headSlice, if_pos h]

theorem slice_splits (h : dep.prefillTp < dep.decodeTp) :
    dep.slice k = ⟨dep.dstRank * dep.dstHeads % dep.srcHeads, dep.dstHeads, 0⟩ := by
  simp only [HeadDeployment.slice, headSlice, if_neg (Nat.not_lt.mpr (Nat.le_of_lt h)), dstHeadsPerRank_eq]

theorem sides (dep : HeadDeployment) :
    (dep.decodeTp < dep.prefillTp ∧ dep.decodeTp ∣ dep.prefillTp) ∨
      (dep.prefillTp < dep.decodeTp ∧ dep.prefillTp ∣ dep.decodeTp) := by
  have hdifferent := dep.different
  rcases dep.multiple with h | h
  · exact .inr ⟨Nat.lt_of_le_of_ne (Nat.le_of_dvd (decodeTp_pos dep) h) hdifferent, h⟩
  · exact .inl ⟨Nat.lt_of_le_of_ne (Nat.le_of_dvd (prefillTp_pos dep) h) (Ne.symm hdifferent), h⟩

theorem numHeadsToSend_pos (dep : HeadDeployment) (k : Nat) : 0 < (dep.slice k).numHeadsToSend := by
  rcases sides dep with ⟨h, -⟩ | ⟨h, -⟩
  · rw [slice_collects h]
    exact srcHeads_pos dep
  · rw [slice_splits h]
    exact dstHeads_pos dep

theorem numHeadsToSend_le (dep : HeadDeployment) (k : Nat) : (dep.slice k).numHeadsToSend ≤ dep.dstHeads := by
  rcases sides dep with ⟨h, hdvd⟩ | ⟨h, -⟩
  · rw [slice_collects h, dstHeads_eq hdvd]
    exact Nat.le_mul_of_pos_left _ (Nat.div_pos (Nat.le_of_lt h) (decodeTp_pos dep))
  · rw [slice_splits h]

/-- Every prefill rank submits its batches. -/
theorem sends_eq (hk : k < dep.prefillTp) :
    dep.sends k = .ok ((List.range (2 * dep.layers)).map (dep.batch k)) := by
  have hbytes : dep.dstHeads * dep.headLen / dep.dstHeads = dep.headLen :=
    Nat.mul_div_cancel_left _ (dstHeads_pos dep)
  have hsrc : (dep.kvArgs k).kvHeadNum = dep.srcHeads := dep.kvHeadNum_eq k hk
  have hlen : (dep.kvArgs k).kvItemLens.head? = some (dep.pageSize * (dep.srcHeads * dep.headLen)) :=
    dep.kvItemLens_eq k hk
  have hslice : headSlice dep.prefillTp dep.decodeTp k (dep.dstTpRank % dep.decodeTp) dep.srcHeads = dep.slice k :=
    rfl
  have hfit : ¬ (dep.slice k).numHeadsToSend * dep.headLen > dep.dstHeads * dep.headLen :=
    Nat.not_lt.mpr (Nat.mul_le_mul_right _ (numHeadsToSend_le dep k))
  have hbatches := mapM_eq_some_map (List.range (2 * dep.layers)) fun b _ => processLayerTpAware_eq dep k b
  simp only [HeadDeployment.sends, sendKvcacheSlice, dep.engineRank_eq k hk, hsrc, dep.kvPageSize_eq k hk, hlen,
    dstHeadsPerRank_eq, Nat.mul_div_cancel_left _ dep.pageSize_pos, hbytes, hslice, if_neg hfit,
    mhaKvPtrsWithPp_eq hk, List.mapM_map]
  rw [Function.comp_def, hbatches]

theorem length_batch (dep : HeadDeployment) (k b : Nat) :
    (dep.batch k b).length = dep.prefillKvIndices.length * dep.pageSize := by
  have := dep.indices_le
  simp [HeadDeployment.batch, List.length_flatMap, this]

theorem getElem?_batch {i : Nat} (hi : i < dep.prefillKvIndices.length) (hslot : slot < dep.pageSize) :
    (dep.batch k b)[i * dep.pageSize + slot]? =
      some (dep.transfer k b slot (dep.prefillKvIndices.getD i 0, dep.dstKvIndices.getD i 0)) := by
  have hi' : i < dep.dstKvIndices.length := Nat.lt_of_lt_of_le hi dep.indices_le
  have hzip : (dep.prefillKvIndices.zip dep.dstKvIndices)[i]? =
      some (dep.prefillKvIndices.getD i 0, dep.dstKvIndices.getD i 0) :=
    List.getElem?_zip_eq_some.mpr ⟨getElem?_getD hi, getElem?_getD hi'⟩
  rw [HeadDeployment.batch, getElem?_flatMap_block (fun pages _ => by simp) _ hslot, hzip, Option.bind_some,
    List.getElem?_map, List.getElem?_range hslot]
  rfl

/-! ## Which transfers touch a head -/

/-- Addresses count heads. -/
theorem headAddr_eq (ptr heads page slot head : Nat) :
    dep.headAddr ptr heads page slot head =
      ptr + ((page * dep.pageSize + slot) * heads + head) * dep.headLen := by
  rw [HeadDeployment.headAddr]
  ring

/-- Numbers with bounded low digits agree digit by digit. -/
theorem digits_inj {S q q' r r' : Nat} (hr : r < S) (hr' : r' < S) (h : q * S + r = q' * S + r') :
    q = q' ∧ r = r' := by
  have hq : q = q' := by
    have hdiv : ∀ {m n : Nat}, n < S → (m * S + n) / S = m := by
      intro m n hn
      rw [Nat.mul_comm, Nat.mul_add_div (Nat.lt_of_le_of_lt (Nat.zero_le n) hn), Nat.div_eq_of_lt hn, Nat.add_zero]
    rw [← hdiv hr (m := q), h, hdiv hr']
  subst hq
  exact ⟨rfl, by omega⟩

/-- A run of digits inside one block of `S` meets only that block. -/
theorem block_eq_of_mem {S q q' r r' n : Nat} (hr : r + n ≤ S) (hr' : r' < S) (hle : q * S + r ≤ q' * S + r')
    (hlt : q' * S + r' < q * S + r + n) : q' = q ∧ r ≤ r' ∧ r' < r + n := by
  have hq : q' = q := by
    rcases Nat.lt_trichotomy q' q with hq | hq | hq
    · have := Nat.mul_le_mul_right S (Nat.succ_le_of_lt hq)
      rw [Nat.succ_mul] at this
      omega
    · exact hq
    · have := Nat.mul_le_mul_right S (Nat.succ_le_of_lt hq)
      rw [Nat.succ_mul] at this
      omega
  subst hq
  exact ⟨rfl, by omega, by omega⟩

/-- The slice of rank `k` lies inside a token slot. -/
def FitsSlot (dep : HeadDeployment) (k : Nat) : Prop :=
  (dep.slice k).dstHeadStartOffset + (dep.slice k).numHeadsToSend ≤ dep.dstHeads

/-- Head `h` of the decode rank is one of those rank `k` sends. -/
def Sends (dep : HeadDeployment) (k h : Nat) : Prop :=
  (dep.slice k).dstHeadStartOffset ≤ h ∧ h < (dep.slice k).dstHeadStartOffset + (dep.slice k).numHeadsToSend

instance (k h : Nat) : Decidable (Sends dep k h) := inferInstanceAs (Decidable (_ ∧ _))

theorem touches_transfer {slot' : Nat} {pages : Nat × Nat} (hfit : FitsSlot dep k) (hslot : slot < dep.pageSize)
    (hslot' : slot' < dep.pageSize) (hh : h < dep.dstHeads) :
    Touches dep.headLen (dep.headAddr (dep.dstPtr b) dep.dstHeads page slot h) (dep.transfer k b slot' pages) ↔
      (pages.2 = page ∧ slot' = slot) ∧ Sends dep k h := by
  have hlen := dep.headLen_pos
  simp only [Touches, HeadDeployment.transfer, headAddr_eq, Sends]
  constructor
  · rintro ⟨hlo, hhi⟩
    rw [Nat.add_assoc, Nat.add_lt_add_iff_left, ← Nat.succ_mul] at hlo
    rw [Nat.add_assoc, Nat.add_lt_add_iff_left, ← Nat.add_mul] at hhi
    obtain ⟨hrow, hstart, hend⟩ := block_eq_of_mem hfit hh
      (Nat.le_of_lt_succ (Nat.lt_of_mul_lt_mul_right hlo)) (Nat.lt_of_mul_lt_mul_right hhi)
    obtain ⟨hpage, hslots⟩ := digits_inj hslot hslot' hrow
    exact ⟨⟨hpage.symm, hslots.symm⟩, hstart, hend⟩
  · rintro ⟨⟨rfl, rfl⟩, hstart, hend⟩
    rw [Nat.add_assoc, Nat.add_lt_add_iff_left, ← Nat.succ_mul, Nat.add_assoc, Nat.add_lt_add_iff_left,
      ← Nat.add_mul]
    exact ⟨Nat.mul_lt_mul_of_pos_right (by omega) hlen, Nat.mul_lt_mul_of_pos_right (by omega) hlen⟩

/-- The one entry of a range that passes a test. -/
theorem filter_range_eq {n i : Nat} (hi : i < n) {test : Nat → Bool} (h : ∀ j < n, test j = true ↔ j = i) :
    (List.range n).filter test = [i] := by
  have hperm : List.Perm ((List.range n).filter test) [i] := by
    refine (List.perm_ext_iff_of_nodup (List.nodup_range.filter _) (List.nodup_singleton i)).mpr fun j => ?_
    rw [List.mem_filter, List.mem_range, List.mem_singleton]
    exact ⟨fun ⟨hj, ht⟩ => (h j hj).mp ht, fun hj => hj ▸ ⟨hi, (h i hi).mpr rfl⟩⟩
  exact List.perm_singleton.mp hperm

/-- What touches a head in the batch of a rank. -/
theorem filter_batch (b page : Nat) (hfit : FitsSlot dep k) (hslot : slot < dep.pageSize) (hh : h < dep.dstHeads) :
    (dep.batch k b).filter
        (fun w => Touches dep.headLen (dep.headAddr (dep.dstPtr b) dep.dstHeads page slot h) w) =
      if Sends dep k h then
        ((dep.prefillKvIndices.zip dep.dstKvIndices).filter fun p => p.2 = page).map (dep.transfer k b slot)
      else [] := by
  rw [HeadDeployment.batch]
  induction dep.prefillKvIndices.zip dep.dstKvIndices with
  | nil => simp
  | cons pages rest ih =>
    rw [List.flatMap_cons, List.filter_append, ih, List.filter_map, List.filter_cons]
    by_cases hsends : Sends dep k h
    · rw [if_pos hsends, if_pos hsends]
      by_cases hpage : pages.2 = page
      · rw [filter_range_eq hslot fun j hj => by
          simp [touches_transfer hfit hslot hj hh, hpage, hsends]]
        simp [hpage]
      · rw [List.filter_eq_nil_iff.mpr fun j hj => by
          simp [touches_transfer hfit hslot (List.mem_range.mp hj) hh, hpage]]
        simp [hpage]
    · rw [if_neg hsends, if_neg hsends, List.filter_eq_nil_iff.mpr fun j hj => by
        simp [touches_transfer hfit hslot (List.mem_range.mp hj) hh, hsends]]
      rfl

/-! ## The selected ranks -/

theorem dstRank_lt (dep : HeadDeployment) : dep.dstRank < dep.decodeTp := Nat.mod_lt _ (decodeTp_pos dep)

theorem targets_collects (h : dep.decodeTp < dep.prefillTp) :
    dep.targets = List.range' (dep.dstRank * (dep.prefillTp / dep.decodeTp)) (dep.prefillTp / dep.decodeTp) := by
  rw [HeadDeployment.targets, targetTpRanks, if_neg (Nat.ne_of_lt h), if_neg (by omega), Nat.succ_mul,
    Nat.add_sub_cancel_left]
  rfl

theorem targets_splits (h : dep.prefillTp < dep.decodeTp) :
    dep.targets = [dep.dstRank / (dep.decodeTp / dep.prefillTp)] := by
  rw [HeadDeployment.targets, targetTpRanks, if_neg (Nat.ne_of_gt h), if_pos h]
  rfl

theorem targets_lt (hk : k ∈ dep.targets) : k < dep.prefillTp := by
  have hrank := dstRank_lt dep
  rcases sides dep with ⟨h, hdvd⟩ | ⟨h, hdvd⟩
  · rw [targets_collects h, List.mem_range'_1, ← Nat.succ_mul] at hk
    calc k < (dep.dstRank + 1) * (dep.prefillTp / dep.decodeTp) := hk.2
      _ ≤ dep.decodeTp * (dep.prefillTp / dep.decodeTp) := Nat.mul_le_mul_right _ hrank
      _ = dep.prefillTp := Nat.mul_div_cancel' hdvd
  · rw [targets_splits h, List.mem_singleton] at hk
    subst hk
    rw [Nat.div_lt_iff_lt_mul (Nat.div_pos (Nat.le_of_lt h) (prefillTp_pos dep)), Nat.mul_div_cancel' hdvd]
    exact hrank

theorem targets_nodup (dep : HeadDeployment) : dep.targets.Nodup := by
  rcases sides dep with ⟨h, -⟩ | ⟨h, -⟩
  · rw [targets_collects h]
    exact List.nodup_range'
  · rw [targets_splits h]
    exact List.nodup_singleton _

theorem fitsSlot (hserved : dep.prefillTp < dep.decodeTp ∨ dep.dstRank = 0) (hk : k ∈ dep.targets) :
    FitsSlot dep k := by
  unfold FitsSlot
  rcases sides dep with ⟨h, hdvd⟩ | ⟨h, -⟩
  · have hzero : dep.dstRank = 0 := hserved.resolve_left (by omega)
    rw [targets_collects h, hzero, List.mem_range'_1, Nat.zero_mul, Nat.zero_add] at hk
    rw [slice_collects h, dstHeads_eq hdvd, ← Nat.succ_mul]
    exact Nat.mul_le_mul_right _ hk.2
  · rw [slice_splits h, Nat.zero_add]

/-- Exactly the rank that holds a head of the decode rank sends it, from where it holds it. -/
theorem sends_iff (hserved : dep.prefillTp < dep.decodeTp ∨ dep.dstRank = 0) (hh : h < dep.dstHeads) :
    dep.globalHead h / dep.srcHeads ∈ dep.targets ∧
      (∀ k ∈ dep.targets, Sends dep k h ↔ k = dep.globalHead h / dep.srcHeads) ∧
      (dep.slice (dep.globalHead h / dep.srcHeads)).srcHeadStartOffset +
          (h - (dep.slice (dep.globalHead h / dep.srcHeads)).dstHeadStartOffset) =
        dep.globalHead h % dep.srcHeads := by
  have hpos := srcHeads_pos dep
  rcases sides dep with ⟨hlt, hdvd⟩ | ⟨hlt, hdvd⟩
  · have hzero : dep.dstRank = 0 := hserved.resolve_left (by omega)
    have hglobal : dep.globalHead h = h := by rw [HeadDeployment.globalHead, hzero, Nat.zero_mul, Nat.zero_add]
    have hdm := Nat.div_add_mod h dep.srcHeads
    rw [dstHeads_eq hdvd] at hh
    rw [hglobal, targets_collects hlt, hzero, Nat.zero_mul]
    simp only [Sends, slice_collects hlt]
    refine ⟨List.mem_range'_1.mpr ⟨Nat.zero_le _, ?_⟩, fun k _ => ?_, ?_⟩
    · rw [Nat.zero_add]
      exact (Nat.div_lt_iff_lt_mul hpos).mpr hh
    · rw [← Nat.succ_mul]
      constructor
      · rintro ⟨hlo, hhi⟩
        exact (Nat.div_eq_of_lt_le hlo hhi).symm
      · rintro rfl
        rw [Nat.succ_mul]
        exact ⟨Nat.div_mul_le_self h _, Nat.lt_div_mul_add hpos⟩
    · rw [Nat.mul_comm] at hdm
      omega
  · have hratio := srcHeads_eq hdvd
    have hdiv : (dep.dstRank * dep.dstHeads + h) / dep.dstHeads = dep.dstRank := by
      rw [Nat.mul_comm, Nat.mul_add_div (dstHeads_pos dep), Nat.div_eq_of_lt hh, Nat.add_zero]
    have hrank : dep.globalHead h / dep.srcHeads = dep.dstRank / (dep.decodeTp / dep.prefillTp) := by
      rw [HeadDeployment.globalHead, hratio, Nat.mul_comm (dep.decodeTp / dep.prefillTp), ← Nat.div_div_eq_div_mul,
        hdiv]
    rw [hrank, targets_splits hlt]
    simp only [Sends, slice_splits hlt]
    refine ⟨List.mem_singleton_self _, fun k hk => ?_, ?_⟩
    · rw [List.mem_singleton] at hk
      simp [hk, hh]
    · rw [HeadDeployment.globalHead, hratio, Nat.sub_zero]
      have hq : 0 < dep.decodeTp / dep.prefillTp := Nat.div_pos (Nat.le_of_lt hlt) (prefillTp_pos dep)
      have hbound : dep.dstRank * dep.dstHeads % (dep.decodeTp / dep.prefillTp * dep.dstHeads) + h <
          dep.decodeTp / dep.prefillTp * dep.dstHeads := by
        rw [Nat.mul_mod_mul_right]
        calc dep.dstRank % (dep.decodeTp / dep.prefillTp) * dep.dstHeads + h
            < (dep.dstRank % (dep.decodeTp / dep.prefillTp) + 1) * dep.dstHeads := by rw [Nat.succ_mul]; omega
          _ ≤ dep.decodeTp / dep.prefillTp * dep.dstHeads := Nat.mul_le_mul_right _ (Nat.mod_lt _ hq)
      rw [← Nat.mod_eq_of_lt hbound, Nat.mod_add_mod]

/-! ## Every head once -/

theorem getD_batches (hb : b < 2 * dep.layers) :
    ((List.range (2 * dep.layers)).map (dep.batch k)).getD b [] = dep.batch k b := by
  rw [List.getD_eq_getElem?_getD, List.getElem?_map, List.getElem?_range hb]
  rfl

theorem transfersTo_eq (hb : b < 2 * dep.layers) :
    dep.transfersTo b = dep.targets.flatMap fun k => (dep.batch k b).map fun w => (k, w) := by
  refine List.flatMap_congr fun k hk => ?_
  rw [sends_eq (targets_lt hk)]
  simp only [getD_batches hb]

theorem flatMap_only {α β : Type} [DecidableEq α] {xs : List α} (hxs : xs.Nodup) {x : α} (hx : x ∈ xs)
    (ys : List β) : (xs.flatMap fun k => if k = x then ys else []) = ys := by
  obtain ⟨before, after, rfl⟩ := List.append_of_mem hx
  have hnot : ∀ k ∈ before ++ after, k ≠ x := fun k hk hkx =>
    (List.nodup_middle.mp hxs).notMem (hkx ▸ hk)
  have hnil : ∀ part : List α, (∀ k ∈ part, k ≠ x) → (part.flatMap fun k => if k = x then ys else []) = [] := by
    intro part hpart
    rw [List.flatMap_eq_nil_iff]
    exact fun k hk => if_neg (hpart k hk)
  rw [List.flatMap_append, List.flatMap_cons, if_pos rfl, hnil before fun k hk => hnot k (List.mem_append_left _ hk),
    hnil after fun k hk => hnot k (List.mem_append_right _ hk), List.nil_append, List.append_nil]

/-- The transfers that touch a head come from the rank that holds it. -/
theorem filter_transfersTo (hserved : dep.prefillTp < dep.decodeTp ∨ dep.dstRank = 0) (hb : b < 2 * dep.layers)
    (hslot : slot < dep.pageSize) (hh : h < dep.dstHeads) :
    ((dep.transfersTo b).filter fun kw =>
        Touches dep.headLen (dep.headAddr (dep.dstPtr b) dep.dstHeads page slot h) kw.2) =
      ((dep.prefillKvIndices.zip dep.dstKvIndices).filter fun p => p.2 = page).map fun p =>
        (dep.globalHead h / dep.srcHeads, dep.transfer (dep.globalHead h / dep.srcHeads) b slot p) := by
  obtain ⟨hmem, honly, -⟩ := sends_iff hserved hh
  rw [transfersTo_eq hb, List.filter_flatMap]
  calc (dep.targets.flatMap fun k => ((dep.batch k b).map fun w => (k, w)).filter fun kw =>
          Touches dep.headLen (dep.headAddr (dep.dstPtr b) dep.dstHeads page slot h) kw.2)
      = dep.targets.flatMap fun k => if k = dep.globalHead h / dep.srcHeads then
          ((dep.prefillKvIndices.zip dep.dstKvIndices).filter fun p => p.2 = page).map fun p =>
            (dep.globalHead h / dep.srcHeads, dep.transfer (dep.globalHead h / dep.srcHeads) b slot p) else [] := by
        refine List.flatMap_congr fun k hk => ?_
        rw [List.filter_map]
        have hbatch := filter_batch b page (fitsSlot hserved hk) hslot hh
        simp only [Function.comp_def, hbatch, honly k hk]
        split
        next heq => rw [List.map_map, ← heq]; rfl
        next => rfl
    _ = _ := flatMap_only (targets_nodup dep) hmem _

/-- Where the prefill group has the smaller TP size, or the decode rank is the first of its group, every
slice is in place. -/
theorem coversHeads_of_served (hserved : dep.prefillTp < dep.decodeTp ∨ dep.dstRank = 0) : CoversHeads dep := by
  refine ⟨?_, ?_, ?_⟩
  · intro k hk
    refine ⟨_, sends_eq (targets_lt hk), by simp, fun b hb => ?_⟩
    rw [getD_batches hb]
    refine ⟨length_batch dep k b, fun i hi slot hslot => ⟨_, getElem?_batch hi hslot, ?_, ?_⟩⟩
    · simp only [HeadDeployment.transfer, HeadDeployment.headAddr]
      omega
    · have hfit := Nat.mul_le_mul_right dep.headLen (fitsSlot hserved hk)
      rw [Nat.add_mul] at hfit
      simp only [HeadDeployment.transfer, HeadDeployment.headAddr]
      omega
  · intro b hb page slot hslot h hh a kw hkw htouch
    have hin : kw ∈ (dep.transfersTo b).filter fun kw => Touches dep.headLen a kw.2 :=
      List.mem_filter.mpr ⟨hkw, decide_eq_true htouch⟩
    rw [filter_transfersTo hserved hb hslot hh, List.mem_map] at hin
    obtain ⟨pages, hpages, rfl⟩ := hin
    obtain ⟨hmem, honly, -⟩ := sends_iff hserved hh
    obtain ⟨hstart, hend⟩ := (honly _ hmem).mpr rfl
    have hpage : pages.2 = page := of_decide_eq_true (List.mem_filter.mp hpages).2
    have hstart' := Nat.mul_le_mul_right dep.headLen hstart
    have hend' := Nat.mul_le_mul_right dep.headLen (Nat.succ_le_of_lt hend)
    rw [Nat.succ_mul, Nat.add_mul] at hend'
    simp only [a, HeadDeployment.transfer, HeadDeployment.headAddr, hpage]
    omega
  · intro b hb page slot hslot h hh a rank
    obtain ⟨hmem, honly, hfrom⟩ := sends_iff hserved hh
    obtain ⟨hstart, -⟩ := (honly _ hmem).mpr rfl
    rw [filter_transfersTo hserved hb hslot hh, List.map_map]
    refine List.map_congr_left fun pages hpages => ?_
    have hpage : pages.2 = page := of_decide_eq_true (List.mem_filter.mp hpages).2
    have hstart' := Nat.mul_le_mul_right dep.headLen hstart
    simp only [Function.comp_apply, a, rank, ← hfrom, HeadDeployment.transfer, HeadDeployment.headAddr, hpage,
      Nat.add_mul, Nat.sub_mul]
    congr 1
    omega

/-- A request without pages sends nothing. -/
theorem coversHeads_of_nil (hpages : dep.prefillKvIndices = []) : CoversHeads dep := by
  have hbatch : ∀ k b, dep.batch k b = [] := by
    intro k b
    rw [HeadDeployment.batch, hpages]
    rfl
  have hnone : ∀ b < 2 * dep.layers, dep.transfersTo b = [] := by
    intro b hb
    simp [transfersTo_eq hb, hbatch]
  refine ⟨fun k hk => ⟨_, sends_eq (targets_lt hk), by simp, fun b hb => ?_⟩, ?_, ?_⟩
  · rw [getD_batches hb, hbatch, hpages]
    simp
  · intro b hb page slot hslot h hh a kw hkw
    rw [hnone b hb] at hkw
    cases hkw
  · intro b hb page slot hslot h hh a rank
    rw [hnone b hb, hpages]
    rfl

/-- A stage without layers has no buffers. -/
theorem coversHeads_of_no_layers (hlayers : dep.layers = 0) : CoversHeads dep := by
  have hb : ∀ {b}, ¬ b < 2 * dep.layers := by
    rw [hlayers]
    exact Nat.not_lt_zero _
  exact ⟨fun k hk => ⟨_, sends_eq (targets_lt hk), by simp, fun b h => absurd h hb⟩,
    fun b h => absurd h hb, fun b h => absurd h hb⟩

/-- Every head of every token slot is written once and in place exactly where the prefill group has the
smaller TP size, the decode rank is the first of its group, or nothing is sent. -/
theorem heads_covered_iff (dep : HeadDeployment) :
    CoversHeads dep ↔
      dep.prefillTp < dep.decodeTp ∨ dep.dstTpRank % dep.decodeTp = 0 ∨ dep.prefillKvIndices = [] ∨
        dep.layers = 0 := by
  constructor
  · intro hcovers
    by_contra hnot
    push Not at hnot
    obtain ⟨hle, hrank, hpages, hlayers⟩ := hnot
    have hpos : 0 < dep.prefillKvIndices.length := List.length_pos_iff.mpr hpages
    rcases sides dep with ⟨hlt, hdvd⟩ | ⟨hlt, -⟩
    · have hratio : 0 < dep.prefillTp / dep.decodeTp := Nat.div_pos (Nat.le_of_lt hlt) (decodeTp_pos dep)
      have hmem : dep.dstRank * (dep.prefillTp / dep.decodeTp) ∈ dep.targets := by
        rw [targets_collects hlt, List.mem_range'_1]
        omega
      obtain ⟨batches, hsends, -, hin⟩ := hcovers.inside _ hmem
      rw [sends_eq (targets_lt hmem), Except.ok.injEq] at hsends
      subst hsends
      obtain ⟨-, hslots⟩ := hin 0 (by omega)
      obtain ⟨w, hw, -, hend⟩ := hslots 0 hpos 0 dep.pageSize_pos
      rw [getD_batches (by omega), getElem?_batch hpos dep.pageSize_pos, Option.some.injEq] at hw
      subst hw
      -- the slice starts behind the heads of a whole token
      have hover : dep.dstHeads ≤ dep.dstRank * (dep.prefillTp / dep.decodeTp) * dep.srcHeads := by
        rw [Nat.mul_assoc, ← dstHeads_eq hdvd]
        exact Nat.le_mul_of_pos_left _ (Nat.pos_of_ne_zero hrank)
      have hover' := Nat.mul_le_mul_right dep.headLen hover
      have hlen : 0 < dep.srcHeads * dep.headLen := Nat.mul_pos (srcHeads_pos dep) dep.headLen_pos
      simp only [HeadDeployment.transfer, slice_collects hlt, HeadDeployment.headAddr] at hend
      omega
    · exact absurd hlt (Nat.not_lt.mpr hle)
  · rintro (hlt | hrank | hpages | hlayers)
    · exact coversHeads_of_served (.inl hlt)
    · exact coversHeads_of_served (.inr hrank)
    · exact coversHeads_of_nil hpages
    · exact coversHeads_of_no_layers hlayers

/-- Four prefill ranks of one head each, two decode ranks, the second decode rank. -/
def secondDecodeRank : HeadDeployment where
  prefillTp := 4
  decodeTp := 2
  heads := 4
  headLen := 1
  pageSize := 1
  layers := 1
  startLayer := 0
  kvArgs := fun k =>
    { engineRank := k, kvDataPtrs := [100, 200], kvItemLens := [1, 1], kvHeadNum := 1, pageSize := 1,
      prefillStartLayer := 0 }
  dstKvPtrs := [1000, 2000]
  dstTpRank := 1
  prefillKvIndices := [0]
  dstKvIndices := [0]
  heads_pos := by decide
  headLen_pos := by decide
  pageSize_pos := by decide
  prefillTp_dvd := by decide
  decodeTp_dvd := by decide
  multiple := by decide
  different := by decide
  engineRank_eq := fun _ hk => Nat.mod_eq_of_lt hk
  kvHeadNum_eq := fun _ _ => rfl
  kvPageSize_eq := fun _ _ => rfl
  kvItemLens_eq := fun _ _ => rfl
  kvDataPtrs_length := fun _ _ => rfl
  startLayer_eq := fun _ _ => rfl
  dst_layers := by decide
  indices_le := by decide

/-- Rank 2 holds head 0 of the second decode rank and writes it two heads behind its two-head slot. -/
theorem second_decode_rank_overrun :
    secondDecodeRank.sends 2 = .ok [[⟨100, 1002, 1⟩], [⟨200, 2002, 1⟩]] ∧ ¬ CoversHeads secondDecodeRank := by
  refine ⟨by decide, fun hcovers => ?_⟩
  obtain ⟨batches, hsends, -, hin⟩ := hcovers.inside 2 (by decide)
  have hbatches : batches = [[⟨100, 1002, 1⟩], [⟨200, 2002, 1⟩]] := by
    rw [show secondDecodeRank.sends 2 = .ok [[⟨100, 1002, 1⟩], [⟨200, 2002, 1⟩]] by decide] at hsends
    exact (Except.ok.inj hsends).symm
  subst hbatches
  obtain ⟨-, hslots⟩ := hin 0 (by decide)
  obtain ⟨w, hw, -, hend⟩ := hslots 0 (by decide) 0 (by decide)
  obtain rfl : (⟨100, 1002, 1⟩ : Transfer) = w := Option.some.inj hw
  exact absurd hend (by decide)

end QCFuse.Guarantees
