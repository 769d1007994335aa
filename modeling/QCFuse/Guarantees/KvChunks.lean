import QCFuse.Library.Paging
import QCFuse.Library.Transition
import QCFuse.Source.PrefillTransfer

/-!
# The chunks of a prompt's KV cache

Over a run of a prefill server the calls of a request's sender tile the pages of its prompt, and the
worker moves each page to the page of the same number on the decode side.
-/

set_option autoImplicit false

namespace QCFuse.Guarantees

open QCFuse.Library QCFuse.Source

/-! ## Contiguous blocks -/

section Blocks

variable {src dst xs : List Int} {a b : Nat}

/-- From `a` up to `b` the values count up. -/
def CountsUp (xs : List Int) (a b : Nat) : Prop := ∀ i, a < i → i < b → xs.getD i 0 = xs.getD (i - 1) 0 + 1

theorem CountsUp.getD (h : CountsUp xs a b) {t : Nat} (ht : a + t < b) : xs.getD (a + t) 0 = xs.getD a 0 + t := by
  induction t with
  | zero => simp
  | succ t ih =>
    have hstep := h (a + (t + 1)) (by omega) ht
    rw [show a + (t + 1) - 1 = a + t by omega, ih (by omega)] at hstep
    rw [hstep]
    push_cast
    ring

theorem headD_cut (hab : a < b) : ((xs.take b).drop a).headD 0 = xs.getD a 0 := by
  rw [List.headD_eq_head?_getD, List.head?_drop, List.getElem?_take_of_lt hab, List.getD_eq_getElem?_getD]

/-- A block that counts up on both sides expands to its pairs. -/
theorem expand_block (hlen : src.length = dst.length) (hab : a < b) (hb : b ≤ src.length)
    (hsrc : CountsUp src a b) (hdst : CountsUp dst a b) :
    blockPairs ((src.take b).drop a, (dst.take b).drop a) = ((src.zip dst).take b).drop a := by
  have hcut : ((src.take b).drop a).length = b - a := by
    rw [List.length_drop, List.length_take, Nat.min_eq_left hb]
  rw [blockPairs, headD_cut hab, headD_cut hab, hcut]
  refine List.ext_getElem? fun t => ?_
  by_cases ht : t < b - a
  · have hsome : ∀ {ys : List Int}, b ≤ ys.length → ys[a + t]? = some (ys.getD (a + t) 0) := fun hys => by
      rw [List.getD_eq_getElem?_getD, List.getElem?_eq_getElem (by omega), Option.getD_some]
    have hzip : (src.zip dst)[a + t]? = some (src.getD (a + t) 0, dst.getD (a + t) 0) :=
      List.getElem?_zip_eq_some.mpr ⟨hsome hb, hsome (hlen ▸ hb)⟩
    rw [List.getElem?_map, List.getElem?_range ht, List.getElem?_drop, List.getElem?_take_of_lt (by omega), hzip,
      hsrc.getD (by omega), hdst.getD (by omega)]
    rfl
  · rw [List.getElem?_eq_none (by rw [List.length_map, List.length_range]; omega),
      List.getElem?_eq_none (by rw [List.length_drop, List.length_take]; omega)]

/-- The blocks from `a` on: their ends in order, and every index that is no end counts up. -/
theorem expand_blocks (hlen : src.length = dst.length) (ends : List Nat) (ha : a < src.length)
    (hsorted : (a :: ends).Pairwise (· < ·)) (hends : ∀ e ∈ ends, e < src.length)
    (hcounts : ∀ i, a < i → i < src.length → i ∉ ends →
      src.getD i 0 = src.getD (i - 1) 0 + 1 ∧ dst.getD i 0 = dst.getD (i - 1) 0 + 1) :
    ((List.zipWith (fun start stop => (src.take stop).drop start) (a :: ends) (ends ++ [src.length])).zip
        (List.zipWith (fun start stop => (dst.take stop).drop start) (a :: ends) (ends ++ [dst.length]))).flatMap
          blockPairs = (src.zip dst).drop a := by
  induction ends generalizing a with
  | nil =>
    have hblock := expand_block hlen ha (Nat.le_refl _)
      (fun i hi hi' => (hcounts i hi hi' List.not_mem_nil).1) (fun i hi hi' => (hcounts i hi hi' List.not_mem_nil).2)
    simp only [List.nil_append, List.zipWith_cons_cons, List.zipWith_nil_left, List.zip_cons_cons,
      List.zip_nil_right, List.flatMap_cons, List.flatMap_nil, List.append_nil, ← hlen]
    rw [hblock, List.take_of_length_le (by rw [List.length_zip, hlen, Nat.min_self])]
  | cons e ends ih =>
    obtain ⟨hfirst, hrest⟩ := List.pairwise_cons.mp hsorted
    have hae := hfirst e List.mem_cons_self
    have he := hends e List.mem_cons_self
    have hnot : ∀ i, i < e → i ∉ e :: ends := by
      intro i hi hmem
      rcases List.mem_cons.mp hmem with rfl | hmem
      · omega
      · have := (List.pairwise_cons.mp hrest).1 i hmem
        omega
    have hblock := expand_block hlen hae (Nat.le_of_lt he)
      (fun i hi hi' => (hcounts i hi (by omega) (hnot i hi')).1)
      (fun i hi hi' => (hcounts i hi (by omega) (hnot i hi')).2)
    have htail := ih he hrest (fun e' he' => hends e' (List.mem_cons_of_mem e he')) fun i hi hi' hmem =>
      hcounts i (by omega) hi' fun hmem' => by
        rcases List.mem_cons.mp hmem' with rfl | hmem'
        · omega
        · exact hmem hmem'
    simp only [List.cons_append, List.zipWith_cons_cons, List.zip_cons_cons, List.flatMap_cons] at htail ⊢
    rw [hblock, htail]
    calc ((src.zip dst).take e).drop a ++ (src.zip dst).drop e
        = ((src.zip dst).take e).drop a ++ ((src.zip dst).drop a).drop (e - a) := by
          rw [List.drop_drop, Nat.add_sub_cancel' (Nat.le_of_lt hae)]
      _ = ((src.zip dst).drop a).take (e - a) ++ ((src.zip dst).drop a).drop (e - a) := by
          rw [List.drop_take]
      _ = (src.zip dst).drop a := List.take_append_drop _ _

theorem mem_breaks {i : Nat} : i ∈ breaks src dst ↔ 0 < i ∧ i < src.length ∧
    (src.getD i 0 ≠ src.getD (i - 1) 0 + 1 ∨ dst.getD i 0 ≠ dst.getD (i - 1) 0 + 1) := by
  simp only [breaks, List.mem_map, List.mem_filter, List.mem_range, decide_eq_true_eq]
  constructor
  · rintro ⟨j, ⟨hj, hdiff⟩, rfl⟩
    refine ⟨by omega, by omega, ?_⟩
    rw [Nat.add_sub_cancel]
    omega
  · rintro ⟨hpos, hlt, hdiff⟩
    refine ⟨i - 1, ⟨by omega, ?_⟩, by omega⟩
    rw [Nat.sub_add_cancel hpos]
    omega

/-- The contiguous blocks expand to the pairs they were grouped from. -/
theorem expand_groups (hlen : src.length = dst.length) :
    ((groupConcurrentContiguous src dst).1.zip (groupConcurrentContiguous src dst).2).flatMap blockPairs =
      src.zip dst := by
  unfold groupConcurrentContiguous
  by_cases hnil : src = []
  · subst hnil
    simp
  · rw [if_neg hnil]
    refine expand_blocks hlen (breaks src dst) (List.length_pos_iff.mpr hnil) ?_
      (fun e he => (mem_breaks.mp he).2.1) ?_
    · refine List.pairwise_cons.mpr ⟨fun e he => (mem_breaks.mp he).1, ?_⟩
      rw [breaks, List.pairwise_map]
      exact (List.pairwise_lt_range.sublist List.filter_sublist).imp fun h => by omega
    · intro i hi hi' hmem
      rw [mem_breaks] at hmem
      by_contra hno
      exact hmem ⟨hi, hi', by omega⟩

end Blocks

/-! ## One send -/

section Send

variable {P : Nat}

theorem strided_eq {xs : List Int} (hP : 0 < P) :
    strided xs P = (List.range (pagesOf P xs.length)).map fun i => xs.getD (i * P) 0 := by
  rw [strided, ← List.filterMap_eq_map]
  refine List.filterMap_congr fun i hi => ?_
  have hlt := (lt_pagesOf hP).mp (List.mem_range.mp hi)
  rw [Function.comp_apply, List.getD_eq_getElem?_getD, List.getElem?_eq_getElem hlt, Option.getD_some]

theorem kvToPageIndices_eq (hP : 0 < P) (slots : List Int) : kvToPageIndices slots P = pagesIn P slots := by
  unfold kvToPageIndices pagesIn
  by_cases hone : P = 1
  · subst hone
    rw [if_pos rfl]
    refine List.ext_getElem? fun i => ?_
    by_cases hi : i < slots.length
    · have hpages : i < pagesOf 1 slots.length := (lt_pagesOf hP).mpr (by omega)
      rw [List.getElem?_map, List.getElem?_range hpages, Option.map_some, List.getD_eq_getElem?_getD, Nat.mul_one,
        List.getElem?_eq_getElem hi, Option.getD_some, Nat.cast_one, Int.ediv_one]
    · rw [List.getElem?_eq_none (by omega), List.getElem?_eq_none]
      rw [List.length_map, List.length_range, pagesOf, Nat.add_sub_cancel, Nat.div_one]
      omega
  · rw [if_neg hone, strided_eq hP, List.map_map]
    rfl

/-- The first `n` tokens of a row fill page after page. -/
def AlignedRow (P : Nat) (row : List Int) (n : Nat) : Prop := n ≤ row.length ∧ InPages P (row.take n)

/-- The calls follow each other from page `a` up to page `b`, none of them empty. -/
def Consecutive : Nat → List (List Int × TransferKVChunk) → Nat → Prop
  | a, [], b => a = b
  | a, call :: calls, b => call.2.start = a ∧ a < call.2.stop ∧ Consecutive call.2.stop calls b

theorem Consecutive.concat {a b : Nat} {calls : List (List Int × TransferKVChunk)}
    {call : List Int × TransferKVChunk} (h : Consecutive a calls b) (hstart : call.2.start = b)
    (hstop : b < call.2.stop) : Consecutive a (calls ++ [call]) call.2.stop := by
  induction calls generalizing a with
  | nil =>
    obtain rfl : a = b := h
    exact ⟨hstart, hstop, rfl⟩
  | cons first rest ih => exact ⟨h.1, h.2.1, ih h.2.2⟩

/-- A call's pages are the pages of the row it was read from: page `j` holds the tokens from `j * P` on. -/
def PagesOfRow (P n : Nat) (call : List Int × TransferKVChunk) : Prop :=
  ∃ page, FillsPages P page (call.1.take (min (call.2.stop * P) n)) ∧
    call.2.prefillKvIndices = (List.range' call.2.start (call.2.stop - call.2.start)).map page

/-- The pages below token `upTo` are sent, and the sender knows that more will come. -/
structure SentTo (P n upTo : Nat) (req : PrefillReq) : Prop where
  prompt : req.originInputIds.length = n
  start : req.startSendIdx = upTo
  aligned : P ∣ upTo
  before : upTo < n
  currIdx : req.sender.currIdx = upTo / P
  numKvIndices : req.sender.numKvIndices = pagesOf P n
  consecutive : Consecutive 0 req.sender.calls (upTo / P)
  notLast : ∀ call ∈ req.sender.calls, call.2.isLast = false
  pages : ∀ call ∈ req.sender.calls, PagesOfRow P n call

/-- The calls tile the pages of the prompt, and exactly the last one says so. -/
structure TilesPrompt (P n : Nat) (calls : List (List Int × TransferKVChunk)) : Prop where
  consecutive : Consecutive 0 calls (pagesOf P n)
  last : ∃ front call, calls = front ++ [call] ∧ call.2.isLast = true ∧ ∀ other ∈ front, other.2.isLast = false
  pages : ∀ call ∈ calls, PagesOfRow P n call

theorem sliceRows_nat (row : List Int) (a b : Nat) : sliceRows row a b = (row.take b).drop a := by
  rw [sliceRows, pyTake, if_neg (by omega), if_neg (by omega), Int.toNat_natCast, Int.toNat_natCast]

/-- The pages of a cut that starts at a page. -/
theorem pages_cut (hP : 0 < P) {row : List Int} {page : Nat → Int} {a b : Nat} (ha : P ∣ a) (hab : a ≤ b)
    (hb : b ≤ row.length) (hpage : FillsPages P page (row.take b)) :
    kvToPageIndices (sliceRows row a b) P = (List.range' (a / P) (pagesOf P b - a / P)).map page := by
  obtain ⟨k, rfl⟩ := ha
  have hfills : FillsPages P (fun j => page (k + j)) ((row.take b).drop (P * k)) := by
    intro i hi
    rw [List.getElem_drop, hpage, Nat.mul_add_div hP, Nat.mul_add_mod]
  have hcount : pagesOf P b - P * k / P = pagesOf P (b - P * k) := by
    have := pagesOf_add hP (Nat.dvd_mul_right P k) (b - P * k)
    rw [Nat.add_sub_cancel' hab] at this
    rw [this, Nat.add_sub_cancel_left]
  rw [sliceRows_nat, kvToPageIndices_eq hP, hfills.pagesIn_eq hP, hcount, List.length_drop, List.length_take,
    Nat.min_eq_left hb, Nat.mul_div_cancel_left _ hP, List.range'_eq_map_range, List.map_map]
  rfl

theorem AlignedRow.mono {row : List Int} {m n : Nat} (h : AlignedRow P row n) (hmn : m ≤ n) : AlignedRow P row m := by
  refine ⟨Nat.le_trans hmn h.1, ?_⟩
  have htake := h.2.take m
  rwa [List.take_take, Nat.min_eq_left hmn] at htake

/-- A send up to token `stop`: nothing, or a call with the pages from the last send on. -/
theorem SentTo.send (hP : 0 < P) {n upTo stop : Nat} {req : PrefillReq} {row : List Int} (lastChunk : Bool)
    (endIdx : Option Int) (h : SentTo P n upTo req) (hle : upTo ≤ stop) (hrow : AlignedRow P row stop)
    (hmin : min (pagesOf P stop * P) n = stop)
    (hend : (if lastChunk then endIdx.getD req.fillEnd
      else endIdx.getD req.fillEnd - endIdx.getD req.fillEnd % (P : Int)) = (stop : Int)) :
    (pagesOf P stop = upTo / P ∧
        req.sendKvChunk P row lastChunk endIdx = { req with startSendIdx := stop }) ∨
      ∃ call, req.sendKvChunk P row lastChunk endIdx =
          { req with
            startSendIdx := stop
            sender := ⟨pagesOf P stop, pagesOf P n, req.sender.calls ++ [call]⟩ } ∧
        Consecutive 0 (req.sender.calls ++ [call]) (pagesOf P stop) ∧
        call.2.isLast = decide (pagesOf P stop = pagesOf P n) ∧ PagesOfRow P n call := by
  obtain ⟨page, hpage⟩ := hrow.2
  have hpages := pages_cut hP h.aligned hle hrow.1 hpage
  have hmono : upTo / P ≤ pagesOf P stop := by
    have := pagesOf_add hP h.aligned (stop - upTo)
    rw [Nat.add_sub_cancel' hle] at this
    omega
  simp only [PrefillReq.sendKvChunk, h.start, hend, hpages, List.length_map, List.length_range']
  by_cases hempty : pagesOf P stop - upTo / P = 0
  · rw [if_pos hempty]
    exact .inl ⟨by omega, rfl⟩
  · have hnext : upTo / P + (pagesOf P stop - upTo / P) = pagesOf P stop := Nat.add_sub_cancel' hmono
    rw [if_neg hempty]
    refine .inr ⟨(row, ⟨(List.range' (upTo / P) (pagesOf P stop - upTo / P)).map page, upTo / P, pagesOf P stop,
      decide (pagesOf P stop = pagesOf P n)⟩), ?_, ?_, rfl, page, ?_, rfl⟩
    · simp only [KvSender.send, h.currIdx, h.numKvIndices, List.length_map, List.length_range', hnext]
    · exact h.consecutive.concat rfl (by show upTo / P < pagesOf P stop; omega)
    · rw [hmin]
      exact hpage

/-- A chunk that is not the last sends the full pages. -/
theorem SentTo.chunk (hP : 0 < P) {n upTo stop : Nat} {req : PrefillReq} {row : List Int} {endIdx : Option Int}
    (h : SentTo P n upTo req) (hle : upTo ≤ stop) (hstop : stop < n) (hrow : AlignedRow P row stop)
    (hend : endIdx.getD req.fillEnd = (stop : Int)) :
    SentTo P n (stop / P * P) (req.sendKvChunk P row false endIdx) := by
  have hfloor : stop / P * P ≤ stop := Nat.div_mul_le_self stop P
  have hfull : pagesOf P (stop / P * P) = stop / P := by
    rw [pagesOf_eq hP, if_pos (Nat.mul_mod_left _ P), Nat.add_zero, Nat.mul_div_cancel _ hP]
  have hto : upTo ≤ stop / P * P := by
    obtain ⟨k, rfl⟩ := h.aligned
    rw [Nat.mul_comm P k] at hle ⊢
    exact Nat.mul_le_mul_right P ((Nat.le_div_iff_mul_le hP).mpr hle)
  have hdown : ((stop : Int) - (stop : Int) % (P : Int)) = ((stop / P * P : Nat) : Int) := by
    have hdm := Nat.div_add_mod' stop P
    omega
  have hback : stop / P * P / P = stop / P := Nat.mul_div_cancel _ hP
  have hless : pagesOf P (stop / P * P) ≠ pagesOf P n := by
    rw [hfull]
    exact Nat.ne_of_lt ((lt_pagesOf hP).mpr (by omega))
  rcases h.send hP false endIdx hto (hrow.mono hfloor) (by rw [hfull]; omega) (by rw [hend]; exact hdown) with
    ⟨hsame, heq⟩ | ⟨call, heq, hcons, hflag, hpages⟩
  · rw [hfull] at hsame
    rw [heq]
    exact ⟨h.prompt, rfl, Nat.dvd_mul_left P _, by omega, by rw [hback, hsame]; exact h.currIdx, h.numKvIndices,
      by rw [hback, hsame]; exact h.consecutive, h.notLast, h.pages⟩
  · rw [decide_eq_false hless] at hflag
    rw [heq, hfull] at *
    refine ⟨h.prompt, rfl, Nat.dvd_mul_left P _, by omega, hback.symm, rfl, by rw [hback]; exact hcons,
      fun other hother => ?_, fun other hother => ?_⟩
    · rcases List.mem_append.mp hother with hold | hnew
      · exact h.notLast other hold
      · rw [List.mem_singleton.mp hnew]
        exact hflag
    · rcases List.mem_append.mp hother with hold | hnew
      · exact h.pages other hold
      · rw [List.mem_singleton.mp hnew]
        exact hpages

/-- The last chunk sends the rest, which is not empty. -/
theorem SentTo.last (hP : 0 < P) {n upTo : Nat} {req : PrefillReq} {row : List Int} (h : SentTo P n upTo req)
    (hrow : AlignedRow P row n) (hend : req.fillEnd = (n : Int)) :
    TilesPrompt P n (req.sendKvChunk P row true none).sender.calls := by
  have hmore : upTo / P < pagesOf P n := by
    rw [lt_pagesOf hP, Nat.div_mul_cancel h.aligned]
    exact h.before
  rcases h.send hP true none (Nat.le_of_lt h.before) hrow (Nat.min_eq_right (le_pagesOf_mul hP n)) hend with
    ⟨hsame, -⟩ | ⟨call, heq, hcons, hflag, hpages⟩
  · omega
  · rw [heq]
    refine ⟨hcons, ⟨req.sender.calls, call, rfl, hflag.trans (decide_eq_true rfl), h.notLast⟩, fun other hother => ?_⟩
    rcases List.mem_append.mp hother with hold | hnew
    · exact h.pages other hold
    · rw [List.mem_singleton.mp hnew]
      exact hpages

end Send

/-! ## The transfer worker -/

theorem Consecutive.stop_le {a b : Nat} {calls : List (List Int × TransferKVChunk)} (h : Consecutive a calls b) :
    a ≤ b ∧ ∀ call ∈ calls, call.2.start < call.2.stop ∧ call.2.stop ≤ b := by
  induction calls generalizing a with
  | nil => exact ⟨Nat.le_of_eq h, fun call hcall => absurd hcall List.not_mem_nil⟩
  | cons first rest ih =>
    obtain ⟨hstart, hstop, hrest⟩ := h
    obtain ⟨hle, hcalls⟩ := ih hrest
    refine ⟨by omega, fun call hcall => ?_⟩
    rcases List.mem_cons.mp hcall with rfl | hcall
    · exact ⟨by omega, hle⟩
    · exact hcalls call hcall

/-- The worker moves the pages of a call to the decode side's pages of the same numbers, in order. -/
theorem transferPairs_eq {P n : Nat} (hP : 0 < P) {calls : List (List Int × TransferKVChunk)}
    (h : TilesPrompt P n calls) {call : List Int × TransferKVChunk} (hcall : call ∈ calls) {dstRow : List Int}
    {dstPage : Nat → Int} (hlen : n ≤ dstRow.length) (hdst : FillsPages P dstPage (dstRow.take n)) :
    transferPairs call.2 (kvToPageIndices (dstRow.take n) P) =
      call.2.prefillKvIndices.zip ((List.range' call.2.start (call.2.stop - call.2.start)).map dstPage) := by
  obtain ⟨page, -, hpages⟩ := h.pages call hcall
  obtain ⟨hlt, hstop⟩ := h.consecutive.stop_le.2 call hcall
  have hrow : kvToPageIndices (dstRow.take n) P = (List.range (pagesOf P n)).map dstPage := by
    rw [kvToPageIndices_eq hP, hdst.pagesIn_eq hP, List.length_take, Nat.min_eq_left hlen]
  have hcut : (((List.range (pagesOf P n)).map dstPage).take call.2.stop).drop call.2.start =
      (List.range' call.2.start (call.2.stop - call.2.start)).map dstPage := by
    rw [← List.map_take, ← List.map_drop, List.take_range, Nat.min_eq_left hstop, List.range_eq_range',
      List.drop_range', Nat.zero_add, Nat.mul_one]
  rw [transferPairs, hrow, hcut]
  have hsame : call.2.prefillKvIndices.length =
      ((List.range' call.2.start (call.2.stop - call.2.start)).map dstPage).length := by
    rw [hpages, List.length_map, List.length_map]
  rw [if_neg (by rw [hsame]; exact Nat.lt_irrefl _)]
  exact expand_groups hsame

/-! ## Requests in a run -/

/-- A request that waits for its first batch. -/
def Fresh (P : Nat) (req : PrefillReq) : Prop := ∃ n, SentTo P n 0 req ∧ req.outputIds = [] ∧ req.isChunked = 0

/-- A request between two of its chunks, with `pending` batches that are not processed yet. -/
def Chunked (P : Nat) (pending : Int) (req : PrefillReq) : Prop :=
  ∃ n upTo, SentTo P n upTo req ∧ upTo ≤ req.fillIds.length ∧ req.fillIds.length < n ∧ req.outputIds = [] ∧
    req.isChunked = pending

/-- A request whose last batch is not processed yet. -/
def Finishing (P : Nat) (req : PrefillReq) : Prop :=
  ∃ n upTo, SentTo P n upTo req ∧ req.fillIds.length = n ∧ req.outputIds = [] ∧ req.isChunked = 0

/-- The next chunk is launched, the one before it ends at `tmp_end_idx`. -/
def Recorded (P : Nat) (truncated : Bool) (req : PrefillReq) : Prop :=
  ∃ n upTo stop, SentTo P n upTo req ∧ req.tmpEndIdx = ((stop : Nat) : Int) ∧ upTo ≤ stop ∧ stop < n ∧
    stop ≤ req.fillIds.length ∧ req.fillIds.length ≤ n ∧ (truncated = true ↔ req.fillIds.length < n) ∧
    req.outputIds = [] ∧ req.isChunked = if truncated then 2 else 1

/-- What a turn of the results' loop does to its request. -/
def resultApplied (overlap : Bool) (P : Nat) (row : List Int) (token : Int) (req : PrefillReq) : PrefillReq :=
  if req.isChunked ≤ 0 then { req with outputIds := req.outputIds ++ [token] }.sendKvChunk P row true none
  else
    let req := { req with isChunked := req.isChunked - 1 }
    if overlap then req.sendKvChunk P row false (some req.tmpEndIdx) else req

theorem sendKvChunk_frame (P : Nat) (row : List Int) (req : PrefillReq) (lastChunk : Bool) (endIdx : Option Int) :
    (req.sendKvChunk P row lastChunk endIdx).originInputIds = req.originInputIds ∧
      (req.sendKvChunk P row lastChunk endIdx).outputIds = req.outputIds ∧
      (req.sendKvChunk P row lastChunk endIdx).fillIds = req.fillIds ∧
      (req.sendKvChunk P row lastChunk endIdx).isChunked = req.isChunked := by
  simp only [PrefillReq.sendKvChunk]
  split_ifs <;> exact ⟨rfl, rfl, rfl, rfl⟩

theorem SentTo.congr {P n upTo : Nat} {req req' : PrefillReq} (h : SentTo P n upTo req)
    (horigin : req'.originInputIds = req.originInputIds) (hstart : req'.startSendIdx = req.startSendIdx)
    (hsender : req'.sender = req.sender) : SentTo P n upTo req' :=
  ⟨horigin ▸ h.prompt, hstart.trans h.start, h.aligned, h.before, hsender ▸ h.currIdx, hsender ▸ h.numKvIndices,
    hsender ▸ h.consecutive, hsender ▸ h.notLast, hsender ▸ h.pages⟩

theorem fillEnd_eq {P n upTo : Nat} {req : PrefillReq} (h : SentTo P n upTo req) (hle : req.fillIds.length ≤ n) :
    req.fillEnd = (req.fillIds.length : Int) := by
  rw [PrefillReq.fillEnd, h.prompt, ← Nat.cast_min, Nat.min_eq_left hle]

theorem Finishing.tiles {P : Nat} (hP : 0 < P) {overlap : Bool} {row : List Int} {token : Int}
    {req : PrefillReq} (h : Finishing P req) (hrow : AlignedRow P row req.fillIds.length) :
    TilesPrompt P req.originInputIds.length (resultApplied overlap P row token req).sender.calls := by
  obtain ⟨n, upTo, hsent, hfill, -, hchunked⟩ := h
  rw [resultApplied, if_pos (Int.le_of_eq hchunked), hsent.prompt]
  have hsent' : SentTo P n upTo { req with outputIds := req.outputIds ++ [token] } := hsent.congr rfl rfl rfl
  exact hsent'.last hP (hfill ▸ hrow) ((fillEnd_eq hsent' (Nat.le_of_eq hfill)).trans (congrArg _ hfill))

theorem Recorded.next {P : Nat} (hP : 0 < P) {truncated : Bool} {row : List Int} (token : Int)
    {req : PrefillReq} (h : Recorded P truncated req) (hrow : AlignedRow P row req.fillIds.length) :
    if truncated then Chunked P 1 (resultApplied true P row token req)
    else Finishing P (resultApplied true P row token req) := by
  obtain ⟨n, upTo, stop, hsent, hend, hle, hlt, hstop, hfill, htruncated, hout, hchunked⟩ := h
  have hpos : ¬ req.isChunked ≤ 0 := by
    rw [hchunked]
    split <;> omega
  have hsent' : SentTo P n upTo { req with isChunked := req.isChunked - 1 } := hsent.congr rfl rfl rfl
  have hchunk : SentTo P n (stop / P * P)
      ({ req with isChunked := req.isChunked - 1 }.sendKvChunk P row false (some req.tmpEndIdx)) :=
    hsent'.chunk hP hle hlt (hrow.mono hstop) hend
  have hprocessed : resultApplied true P row token req =
      { req with isChunked := req.isChunked - 1 }.sendKvChunk P row false (some req.tmpEndIdx) := by
    rw [resultApplied, if_neg hpos]
    rfl
  obtain ⟨-, hout', hfill', hchunked'⟩ :=
    sendKvChunk_frame P row { req with isChunked := req.isChunked - 1 } false (some req.tmpEndIdx)
  rw [← hprocessed] at hchunk hout' hfill' hchunked'
  have hfloor := Nat.div_mul_le_self stop P
  split
  next ht =>
    refine ⟨n, stop / P * P, hchunk, by rw [hfill']; exact Nat.le_trans hfloor hstop, ?_, hout'.trans hout, ?_⟩
    · rw [hfill']
      exact htruncated.mp ht
    · rw [hchunked', hchunked, if_pos ht]
      rfl
  next ht =>
    have hfull : ¬ req.fillIds.length < n := fun hless => ht (htruncated.mpr hless)
    refine ⟨n, stop / P * P, hchunk, by rw [hfill']; show req.fillIds.length = n; omega, hout'.trans hout, ?_⟩
    rw [hchunked', hchunked, if_neg ht]
    rfl

/-! ## The server -/

section Server

variable {s : PrefillServer} {c : PrefillIteration}

theorem processResult_reqs (s : PrefillServer) (c : PrefillIteration) (r : Nat) :
    (s.processResult c r).reqs = Function.update s.reqs r
      (resultApplied s.enableOverlap s.pageSize (c.rows r) (c.nextTokenId r) (s.reqs r)) := by
  unfold PrefillServer.processResult resultApplied
  split
  · rfl
  · simp only [PrefillServer.modify]

/-- What the results' loop leaves alone, and whom it puts in flight. -/
theorem processResult_frame (s : PrefillServer) (c : PrefillIteration) (r : Nat) :
    s.processResult c r = { s with
      reqs := (s.processResult c r).reqs
      inflightQueue := s.inflightQueue ++ if (s.reqs r).isChunked ≤ 0 then [r] else [] } := by
  unfold PrefillServer.processResult
  split
  · rfl
  · simp only [PrefillServer.modify, List.append_nil]

/-- Every request of a batch is processed once. -/
theorem processBatchResult_eq (c : PrefillIteration) {batch : List Nat} (hnodup : batch.Nodup)
    (s : PrefillServer) :
    s.processBatchResult c batch = { s with
      reqs := fun r => if r ∈ batch then
        resultApplied s.enableOverlap s.pageSize (c.rows r) (c.nextTokenId r) (s.reqs r) else s.reqs r
      inflightQueue := s.inflightQueue ++ batch.filter fun r => (s.reqs r).isChunked ≤ 0 } := by
  induction batch generalizing s with
  | nil => simp [PrefillServer.processBatchResult]
  | cons r batch ih =>
    obtain ⟨hr, hrest⟩ := List.nodup_cons.mp hnodup
    have hframe := processResult_frame s c r
    have hothers : ∀ q ∈ batch, (s.processResult c r).reqs q = s.reqs q := fun q hq => by
      rw [processResult_reqs, Function.update_of_ne (fun heq : q = r => hr (heq ▸ hq))]
    have hoverlap : (s.processResult c r).enableOverlap = s.enableOverlap := by rw [hframe]
    have hpage : (s.processResult c r).pageSize = s.pageSize := by rw [hframe]
    have hstep : s.processBatchResult c (r :: batch) = (s.processResult c r).processBatchResult c batch := rfl
    have hfilter : (batch.filter fun q => ((s.processResult c r).reqs q).isChunked ≤ 0) =
        batch.filter fun q => (s.reqs q).isChunked ≤ 0 :=
      List.filter_congr fun q hq => by rw [hothers q hq]
    rw [hstep, ih hrest, hfilter, hoverlap, hpage]
    conv_lhs => rw [hframe]
    simp only [PrefillServer.mk.injEq, true_and]
    refine ⟨funext fun q => ?_, ?_⟩
    · by_cases hq : q = r
      · subst hq
        rw [if_neg hr, if_pos List.mem_cons_self, processResult_reqs, Function.update_self]
      · rw [processResult_reqs, Function.update_of_ne hq]
        simp only [List.mem_cons, hq, false_or]
    · rw [List.append_assoc, List.filter_cons]
      by_cases hle : (s.reqs r).isChunked ≤ 0
      · rw [if_pos hle, if_pos (decide_eq_true hle), List.singleton_append]
      · rw [if_neg hle, if_neg (by simpa using hle), List.nil_append]

/-- Where every request is, and what its sender has done. -/
structure ServerInv (s : PrefillServer) : Prop where
  page_pos : 0 < s.pageSize
  pending : s.resultQueue = if s.enableOverlap then s.lastBatch.toList else []
  batch_nodup : ∀ b ∈ s.lastBatch, b.Nodup
  waiting : ∀ r ∈ s.waitingQueue, Fresh s.pageSize (s.reqs r) ∧ s.chunkedReq ≠ some r ∧
    (∀ b ∈ s.lastBatch, r ∉ b) ∧ r ∉ s.inflightQueue
  chunked : ∀ r ∈ s.chunkedReq, Chunked s.pageSize (if s.enableOverlap then 1 else 0) (s.reqs r) ∧
    (∃ b ∈ s.lastBatch, r ∈ b) ∧ r ∉ s.inflightQueue
  finishing : s.enableOverlap = true → ∀ b ∈ s.lastBatch, ∀ r ∈ b, s.chunkedReq ≠ some r →
    Finishing s.pageSize (s.reqs r) ∧ r ∉ s.inflightQueue
  sent : ∀ r ∈ s.inflightQueue,
    TilesPrompt s.pageSize (s.reqs r).originInputIds.length (s.reqs r).sender.calls

/-- `process_prefill_chunk` sends the chunk, or records where it ends. -/
theorem ServerInv.processPrefillChunk (h : ServerInv s)
    (hrow : ∀ r ∈ s.chunkedReq, AlignedRow s.pageSize c.cachedRow (s.reqs r).fillIds.length) :
    ∃ reqs, s.processPrefillChunk c = { s with reqs } ∧ ServerInv { s with reqs } ∧
      (s.enableOverlap = true → ∀ r ∈ s.chunkedReq, (reqs r).tmpEndIdx = (reqs r).fillIds.length) := by
  rcases Option.eq_none_or_eq_some s.chunkedReq with hchunked | ⟨r, hchunked⟩
  · refine ⟨s.reqs, ?_, h, fun _ r hr => absurd (hchunked.symm.trans hr) (by simp)⟩
    show s.processPrefillChunk c = s
    rw [PrefillServer.processPrefillChunk, hchunked]
    cases s.lastBatch <;> rfl
  · obtain ⟨⟨n, upTo, hsent, hle, hlt, hout, hpending⟩, ⟨b, hb, hrb⟩, hflight⟩ := h.chunked r hchunked
    have hend := fillEnd_eq hsent (Nat.le_of_lt hlt)
    have hothers : ∀ f : PrefillReq → PrefillReq,
        Chunked s.pageSize (if s.enableOverlap then 1 else 0) (f (s.reqs r)) →
          ServerInv { s with reqs := Function.update s.reqs r (f (s.reqs r)) } := by
      intro f hf
      refine ⟨h.page_pos, h.pending, h.batch_nodup, fun q hq => ?_, fun q hq => ?_, fun ho b' hb' q hq hne => ?_,
        fun q hq => ?_⟩
      · have hne : q ≠ r := fun heq => (h.waiting q hq).2.1 (heq ▸ hchunked)
        simp only [Function.update_of_ne hne]
        exact h.waiting q hq
      · obtain rfl : r = q := Option.some.inj (hchunked.symm.trans hq)
        simp only [Function.update_self]
        exact ⟨hf, ⟨b, hb, hrb⟩, hflight⟩
      · have hqr : q ≠ r := fun heq => hne (heq ▸ hchunked)
        simp only [Function.update_of_ne hqr]
        exact h.finishing ho b' hb' q hq hne
      · have hqr : q ≠ r := fun heq => hflight (heq ▸ hq)
        simp only [Function.update_of_ne hqr]
        exact h.sent q hq
    have hprocess : s.processPrefillChunk c =
        if s.enableOverlap then s.modify r fun req => { req with tmpEndIdx := req.fillEnd }
        else s.modify r fun req => req.sendKvChunk s.pageSize c.cachedRow false none := by
      rw [PrefillServer.processPrefillChunk, hchunked, show s.lastBatch = some b from hb]
    rw [hprocess]
    by_cases ho : s.enableOverlap = true
    · rw [if_pos ho]
      refine ⟨_, rfl, hothers (fun req => { req with tmpEndIdx := req.fillEnd })
        ⟨n, upTo, hsent.congr rfl rfl rfl, hle, hlt, hout, hpending⟩, fun _ q hq => ?_⟩
      obtain rfl : r = q := Option.some.inj (hchunked.symm.trans hq)
      simp only [Function.update_self]
      exact hend
    · rw [if_neg ho]
      obtain ⟨horigin, hout', hfill, hchunked'⟩ := sendKvChunk_frame s.pageSize c.cachedRow (s.reqs r) false none
      have hfloor := Nat.div_mul_le_self (s.reqs r).fillIds.length s.pageSize
      refine ⟨_, rfl, hothers (fun req => req.sendKvChunk s.pageSize c.cachedRow false none)
        ⟨n, _, hsent.chunk h.page_pos hle hlt (hrow r hchunked) hend, by rw [hfill]; exact hfloor,
          by rw [hfill]; exact hlt, hout'.trans hout, hchunked'.trans hpending⟩,
        fun ho' => absurd ho' ho⟩

/-! ### The next batch -/

/-- The requests of the new batch. -/
def batchReqs (c : PrefillIteration) : List Nat := c.batch.map Prod.fst

theorem getNewBatchPrefill_frame (s : PrefillServer) (c : PrefillIteration) :
    (s.getNewBatchPrefill c).1 = { s with
      reqs := (s.getNewBatchPrefill c).1.reqs
      chunkedReq := (s.getNewBatchPrefill c).1.chunkedReq
      waitingQueue := s.waitingQueue.filter fun r => r ∉ batchReqs c } ∧
    ((s.getNewBatchPrefill c).2 = none ∧ batchReqs c = [] ∨
      (s.getNewBatchPrefill c).2 = some (batchReqs c)) := by
  unfold PrefillServer.getNewBatchPrefill batchReqs
  by_cases hnil : c.batch = []
  · simp [hnil]
  · simp [hnil]

theorem lookup_entry {batch : List (Nat × Nat)} (hnodup : (batch.map Prod.fst).Nodup) {r stop : Nat}
    (hmem : (r, stop) ∈ batch) : batch.lookup r = some stop := by
  induction batch with
  | nil => exact absurd hmem List.not_mem_nil
  | cons entry batch ih =>
    obtain ⟨hentry, hrest⟩ := List.nodup_cons.mp hnodup
    rcases List.mem_cons.mp hmem with rfl | hmem
    · exact List.lookup_cons_self
    · have hne : (r == entry.1) = false := by
        rw [beq_eq_false_iff_ne]
        exact fun heq => hentry (heq ▸ List.mem_map_of_mem (f := Prod.fst) hmem)
      rw [List.lookup_cons, hne]
      exact ih hrest hmem

theorem head?_eq_some_iff_mem {xs : List Nat} (h : xs.length ≤ 1) {x : Nat} : xs.head? = some x ↔ x ∈ xs := by
  match xs, h with
  | [], _ => simp
  | [y], _ => simp [eq_comm]

theorem truncated_iff (hs : s.Schedules c) {r stop : Nat} (hmem : (r, stop) ∈ c.batch) :
    (s.truncated c).head? = some r ↔ stop < (s.reqs r).originInputIds.length := by
  rw [head?_eq_some_iff_mem hs.oneTruncated, PrefillServer.truncated, List.mem_map]
  constructor
  · rintro ⟨⟨q, stop'⟩, hfilter, rfl⟩
    obtain ⟨hmem', hlt⟩ := List.mem_filter.mp hfilter
    have hsame := (lookup_entry hs.distinct hmem).symm.trans (lookup_entry hs.distinct hmem')
    rw [Option.some.inj hsame]
    exact of_decide_eq_true hlt
  · exact fun hlt => ⟨(r, stop), List.mem_filter.mpr ⟨hmem, decide_eq_true hlt⟩, rfl⟩

/-- A request of the batch goes on to its new end. -/
theorem launched_reqs (hs : s.Schedules c) {r stop : Nat} (hmem : (r, stop) ∈ c.batch) :
    ((s.getNewBatchPrefill c).1.chunkedReq = some r ↔ stop < (s.reqs r).originInputIds.length) ∧
      (s.getNewBatchPrefill c).1.reqs r = { s.reqs r with
        fillIds := ((s.reqs r).originInputIds ++ (s.reqs r).outputIds).take stop
        isChunked := (s.reqs r).isChunked + if stop < (s.reqs r).originInputIds.length then 1 else 0 } := by
  have hne : c.batch ≠ [] := List.ne_nil_of_mem hmem
  have hiff := truncated_iff hs hmem
  unfold PrefillServer.getNewBatchPrefill
  rw [if_neg hne]
  refine ⟨hiff, ?_⟩
  simp only [lookup_entry hs.distinct hmem]
  by_cases hlt : stop < (s.reqs r).originInputIds.length
  · rw [if_pos (hiff.mpr hlt), if_pos hlt]
  · rw [if_neg fun heq => hlt (hiff.mp heq), if_neg hlt, Int.add_zero]

/-- A request outside the batch is left alone, and is not the chunked request. -/
theorem unlaunched_reqs (hs : s.Schedules c) {r : Nat} (hr : r ∉ batchReqs c) :
    (s.getNewBatchPrefill c).1.chunkedReq ≠ some r ∧ (s.getNewBatchPrefill c).1.reqs r = s.reqs r := by
  unfold PrefillServer.getNewBatchPrefill
  by_cases hnil : c.batch = []
  · rw [if_pos hnil]
    refine ⟨fun heq => ?_, rfl⟩
    obtain ⟨stop, rest, hbatch, -⟩ := hs.chunked r heq
    rw [hnil] at hbatch
    cases hbatch
  · have hhead : (s.truncated c).head? ≠ some r := fun heq => by
      rw [head?_eq_some_iff_mem hs.oneTruncated] at heq
      exact hr ((List.filter_sublist.map Prod.fst).subset heq)
    have hlookup : c.batch.lookup r = none := by
      rw [List.lookup_eq_none_iff]
      exact fun entry hentry => bne_iff_ne.mpr fun heq => hr (heq ▸ List.mem_map_of_mem (f := Prod.fst) hentry)
    rw [if_neg hnil]
    refine ⟨hhead, ?_⟩
    simp only [hlookup, if_neg hhead]

/-- A request with no batch pending is between chunks after its next one, or finishing. -/
theorem launched_ready (hs : s.Schedules c) {P n upTo r stop : Nat} (hmem : (r, stop) ∈ c.batch)
    (hsent : SentTo P n upTo (s.reqs r)) (hle : upTo ≤ stop) (hout : (s.reqs r).outputIds = [])
    (hchunked : (s.reqs r).isChunked = 0) :
    ((s.getNewBatchPrefill c).1.chunkedReq = some r → Chunked P 1 ((s.getNewBatchPrefill c).1.reqs r)) ∧
      ((s.getNewBatchPrefill c).1.chunkedReq ≠ some r → Finishing P ((s.getNewBatchPrefill c).1.reqs r)) := by
  obtain ⟨hiff, hreqs⟩ := launched_reqs hs hmem
  have hstop : stop ≤ n := hsent.prompt ▸ hs.stops _ hmem
  have hfill : (((s.reqs r).originInputIds ++ (s.reqs r).outputIds).take stop).length = stop := by
    rw [hout, List.append_nil, List.length_take, hsent.prompt, Nat.min_eq_left hstop]
  rw [hsent.prompt] at hiff hreqs
  rw [hreqs]
  refine ⟨fun heq => ?_, fun hne => ?_⟩
  · have hlt := hiff.mp heq
    exact ⟨n, upTo, hsent.congr rfl rfl rfl, hfill.symm ▸ hle, hfill.symm ▸ hlt, hout,
      by rw [if_pos hlt, hchunked]; rfl⟩
  · have hlt : ¬ stop < n := fun hlt => hne (hiff.mpr hlt)
    exact ⟨n, upTo, hsent.congr rfl rfl rfl, hfill.trans (by omega), hout, by rw [if_neg hlt, hchunked]; rfl⟩

/-- The chunked request of the overlap loop, whose last chunk is still to be processed. -/
theorem launched_recorded (hs : s.Schedules c) {P r stop : Nat} (hmem : (r, stop) ∈ c.batch)
    (h : Chunked P 1 (s.reqs r)) (hend : (s.reqs r).tmpEndIdx = (s.reqs r).fillIds.length)
    (hle : (s.reqs r).fillIds.length ≤ stop) :
    Recorded P (decide ((s.getNewBatchPrefill c).1.chunkedReq = some r)) ((s.getNewBatchPrefill c).1.reqs r) := by
  obtain ⟨hiff, hreqs⟩ := launched_reqs hs hmem
  obtain ⟨n, upTo, hsent, hupTo, hlt, hout, hchunked⟩ := h
  have hstop : stop ≤ n := hsent.prompt ▸ hs.stops _ hmem
  have hfill : (((s.reqs r).originInputIds ++ (s.reqs r).outputIds).take stop).length = stop := by
    rw [hout, List.append_nil, List.length_take, hsent.prompt, Nat.min_eq_left hstop]
  rw [hsent.prompt] at hiff hreqs
  rw [hreqs]
  refine ⟨n, upTo, (s.reqs r).fillIds.length, hsent.congr rfl rfl rfl, hend, hupTo, hlt, hfill.symm ▸ hle,
    hfill.symm ▸ hstop, ?_, hout, ?_⟩
  · show decide _ = true ↔ (List.take _ _).length < n
    rw [hfill, decide_eq_true_iff]
    exact hiff
  · show (s.reqs r).isChunked + _ = _
    rw [hchunked]
    by_cases hless : stop < n
    · rw [if_pos hless, if_pos (decide_eq_true (hiff.mpr hless))]
      rfl
    · rw [if_neg hless, if_neg (by rw [decide_eq_true_iff]; exact fun heq => hless (hiff.mp heq))]
      rfl

/-! ### A turn of the loops -/

theorem resultApplied_frame (overlap : Bool) (P : Nat) (row : List Int) (token : Int) (req : PrefillReq) :
    (resultApplied overlap P row token req).originInputIds = req.originInputIds ∧
      (resultApplied overlap P row token req).fillIds = req.fillIds := by
  unfold resultApplied
  split_ifs
  · obtain ⟨horigin, -, hfill, -⟩ :=
      sendKvChunk_frame P row { req with outputIds := req.outputIds ++ [token] } true none
    exact ⟨horigin, hfill⟩
  · obtain ⟨horigin, -, hfill, -⟩ :=
      sendKvChunk_frame P row { req with isChunked := req.isChunked - 1 } false (some req.tmpEndIdx)
    exact ⟨horigin, hfill⟩
  · exact ⟨rfl, rfl⟩

/-- Where a request of the new batch was before. -/
theorem ServerInv.entry (h : ServerInv s) (hs : s.Schedules c) {r : Nat} (hr : r ∈ batchReqs c) :
    r ∉ s.inflightQueue ∧ ∃ stop, (r, stop) ∈ c.batch ∧
      (s.chunkedReq = some r ∧ (s.reqs r).fillIds.length ≤ stop ∨
        s.chunkedReq ≠ some r ∧ Fresh s.pageSize (s.reqs r) ∧ ∀ b ∈ s.lastBatch, r ∉ b) := by
  obtain ⟨⟨q, stop⟩, hmem, rfl⟩ := List.mem_map.mp hr
  rcases hs.waiting _ hmem with hchunked | hwaiting
  · obtain ⟨stop', rest, hbatch, hle⟩ := hs.chunked q hchunked
    have hmem' : (q, stop') ∈ c.batch := hbatch ▸ List.mem_cons_self
    exact ⟨(h.chunked q hchunked).2.2, stop', hmem', .inl ⟨hchunked, hle⟩⟩
  · obtain ⟨hfresh, hne, hlast, hflight⟩ := h.waiting q hwaiting
    exact ⟨hflight, stop, hmem, .inr ⟨hne, hfresh, hlast⟩⟩

theorem Fresh.ready {P : Nat} {req : PrefillReq} (h : Fresh P req) (stop : Nat) :
    ∃ n upTo, SentTo P n upTo req ∧ upTo ≤ stop ∧ req.outputIds = [] ∧ req.isChunked = 0 := by
  obtain ⟨n, hsent, hout, hchunked⟩ := h
  exact ⟨n, 0, hsent, Nat.zero_le _, hout, hchunked⟩

/-- Without overlap every request of the new batch is ready. -/
theorem ServerInv.launch_normal (h : ServerInv s) (ho : s.enableOverlap = false) (hs : s.Schedules c) {r : Nat}
    (hr : r ∈ batchReqs c) :
    ((s.getNewBatchPrefill c).1.chunkedReq = some r → Chunked s.pageSize 1 ((s.getNewBatchPrefill c).1.reqs r)) ∧
      ((s.getNewBatchPrefill c).1.chunkedReq ≠ some r →
        Finishing s.pageSize ((s.getNewBatchPrefill c).1.reqs r)) := by
  obtain ⟨-, stop, hmem, ⟨hchunked, hstop⟩ | ⟨-, hfresh, -⟩⟩ := h.entry hs hr
  · obtain ⟨⟨n, upTo, hsent, hle, -, hout, hpending⟩, -⟩ := h.chunked r hchunked
    rw [ho] at hpending
    exact launched_ready hs hmem hsent (Nat.le_trans hle hstop) hout hpending
  · obtain ⟨n, upTo, hsent, hle, hout, hpending⟩ := hfresh.ready stop
    exact launched_ready hs hmem hsent hle hout hpending

theorem newBatch_eq (s : PrefillServer) (c : PrefillIteration) :
    (∀ b ∈ (s.getNewBatchPrefill c).2, b = batchReqs c) ∧
      ∀ r ∈ batchReqs c, batchReqs c ∈ (s.getNewBatchPrefill c).2 := by
  rcases (getNewBatchPrefill_frame s c).2 with ⟨hnone, hnil⟩ | hsome
  · rw [hnone, hnil]
    exact ⟨fun b hb => absurd hb (by simp), fun r hr => absurd hr List.not_mem_nil⟩
  · rw [hsome]
    exact ⟨fun b hb => (Option.some.inj hb).symm, fun r _ => rfl⟩

/-- Whom the new batch does not take stays as it was. -/
theorem ServerInv.waiting_kept (h : ServerInv s) (hs : s.Schedules c) {r : Nat}
    (hr : r ∈ s.waitingQueue.filter fun r => r ∉ batchReqs c) :
    r ∉ batchReqs c ∧ Fresh s.pageSize ((s.getNewBatchPrefill c).1.reqs r) ∧
      (s.getNewBatchPrefill c).1.chunkedReq ≠ some r ∧
      (∀ b ∈ (s.getNewBatchPrefill c).2, r ∉ b) ∧ r ∉ s.inflightQueue := by
  obtain ⟨hmem, hnot⟩ := List.mem_filter.mp hr
  have hnot := of_decide_eq_true hnot
  obtain ⟨hnext, hreqs⟩ := unlaunched_reqs hs hnot
  obtain ⟨hfresh, -, -, hflight⟩ := h.waiting r hmem
  exact ⟨hnot, hreqs ▸ hfresh, hnext, fun b hb => (newBatch_eq s c).1 b hb ▸ hnot, hflight⟩

/-- The normal loop keeps the invariant. -/
theorem ServerInv.process_normal (h : ServerInv s) (ho : s.enableOverlap = false) (hs : s.Schedules c)
    (hrows : ∀ r ∈ batchReqs c, AlignedRow s.pageSize (c.rows r) ((s.getNewBatchPrefill c).1.reqs r).fillIds.length) :
    ServerInv { (s.getNewBatchPrefill c).1.processBatchResult c (batchReqs c) with
      lastBatch := (s.getNewBatchPrefill c).2 } := by
  have hlaunch := fun r (hr : r ∈ batchReqs c) => h.launch_normal ho hs hr
  have hrest := fun r (hr : r ∉ batchReqs c) => unlaunched_reqs hs hr
  have hflight := fun r (hr : r ∈ batchReqs c) => (h.entry hs hr).1
  rw [processBatchResult_eq c (show (batchReqs c).Nodup from hs.distinct), (getNewBatchPrefill_frame s c).1]
  dsimp only
  refine ⟨h.page_pos, ?_, fun b hb => ?_, fun r hr => ?_, fun r hr => ?_, fun ho' => ?_, fun r hr => ?_⟩
  · show s.resultQueue = if s.enableOverlap then _ else []
    rw [h.pending, ho]
    rfl
  · rw [(newBatch_eq s c).1 b hb]
    exact hs.distinct
  · obtain ⟨hnot, hfresh, hnext, hlast, hold⟩ := h.waiting_kept hs hr
    simp only [if_neg hnot]
    refine ⟨hfresh, hnext, hlast, fun hmem => ?_⟩
    rcases List.mem_append.mp hmem with hmem | hmem
    · exact hold hmem
    · exact hnot (List.mem_filter.mp hmem).1
  · have hmem : r ∈ batchReqs c := by
      by_contra hnot
      exact (hrest r hnot).1 hr
    obtain ⟨n, upTo, hsent, hle, hlt, hout, hchunked⟩ := (hlaunch r hmem).1 hr
    have hpos : ¬ ((s.getNewBatchPrefill c).1.reqs r).isChunked ≤ 0 := by omega
    simp only [if_pos hmem, ho]
    refine ⟨?_, ⟨_, (newBatch_eq s c).2 r hmem, hmem⟩, fun hin => ?_⟩
    · rw [resultApplied, if_neg hpos]
      exact ⟨n, upTo, hsent.congr rfl rfl rfl, hle, hlt, hout, by show _ - 1 = _; rw [hchunked]; rfl⟩
    · rcases List.mem_append.mp hin with hin | hin
      · exact hflight r hmem hin
      · exact hpos (of_decide_eq_true (List.mem_filter.mp hin).2)
  · exact absurd (ho.symm.trans ho') (by simp)
  · rcases List.mem_append.mp hr with hold | hnew
    · have hnot : r ∉ batchReqs c := fun hmem => hflight r hmem hold
      simp only [if_neg hnot, (hrest r hnot).2]
      exact h.sent r hold
    · obtain ⟨hmem, hle⟩ := List.mem_filter.mp hnew
      have hfinishing : Finishing s.pageSize ((s.getNewBatchPrefill c).1.reqs r) := by
        refine (hlaunch r hmem).2 fun hnext => ?_
        obtain ⟨n, upTo, -, -, -, -, hchunked⟩ := (hlaunch r hmem).1 hnext
        have := of_decide_eq_true hle
        omega
      simp only [if_pos hmem, (resultApplied_frame _ _ _ _ _).1]
      exact hfinishing.tiles h.page_pos (hrows r hmem)

/-- In the overlap loop, where a request of the new batch is after its launch. -/
theorem ServerInv.launch_overlap (h : ServerInv s) (ho : s.enableOverlap = true)
    (hend : ∀ r ∈ s.chunkedReq, (s.reqs r).tmpEndIdx = (s.reqs r).fillIds.length) (hs : s.Schedules c) {r : Nat}
    (hr : r ∈ batchReqs c) :
    (s.chunkedReq = some r ∧ Recorded s.pageSize (decide ((s.getNewBatchPrefill c).1.chunkedReq = some r))
        ((s.getNewBatchPrefill c).1.reqs r)) ∨
      (s.chunkedReq ≠ some r ∧ (∀ b ∈ s.lastBatch, r ∉ b) ∧
        ((s.getNewBatchPrefill c).1.chunkedReq = some r →
          Chunked s.pageSize 1 ((s.getNewBatchPrefill c).1.reqs r)) ∧
        ((s.getNewBatchPrefill c).1.chunkedReq ≠ some r →
          Finishing s.pageSize ((s.getNewBatchPrefill c).1.reqs r))) := by
  obtain ⟨-, stop, hmem, ⟨hchunked, hstop⟩ | ⟨hne, hfresh, hlast⟩⟩ := h.entry hs hr
  · obtain ⟨hpending, -⟩ := h.chunked r hchunked
    rw [ho] at hpending
    exact .inl ⟨hchunked, launched_recorded hs hmem hpending (hend r hchunked) hstop⟩
  · obtain ⟨n, upTo, hsent, hle, hout, hpending⟩ := hfresh.ready stop
    exact .inr ⟨hne, hlast, launched_ready hs hmem hsent hle hout hpending⟩

theorem Recorded.isChunked_pos {P : Nat} {truncated : Bool} {req : PrefillReq} (h : Recorded P truncated req) :
    ¬ req.isChunked ≤ 0 := by
  obtain ⟨n, upTo, stop, -, -, -, -, -, -, -, -, hchunked⟩ := h
  rw [hchunked]
  split <;> omega

/-- In the overlap loop, where a request of the batch before is after the new batch is launched. -/
theorem ServerInv.previous (h : ServerInv s) (ho : s.enableOverlap = true)
    (hend : ∀ r ∈ s.chunkedReq, (s.reqs r).tmpEndIdx = (s.reqs r).fillIds.length) (hs : s.Schedules c) {r : Nat}
    (hr : r ∈ s.lastBatch.getD []) :
    r ∉ s.inflightQueue ∧
      (s.chunkedReq = some r ∧ Recorded s.pageSize (decide ((s.getNewBatchPrefill c).1.chunkedReq = some r))
          ((s.getNewBatchPrefill c).1.reqs r) ∨
        s.chunkedReq ≠ some r ∧ r ∉ batchReqs c ∧ Finishing s.pageSize ((s.getNewBatchPrefill c).1.reqs r)) := by
  obtain ⟨b, hb, hrb⟩ : ∃ b ∈ s.lastBatch, r ∈ b := by
    cases hb : s.lastBatch with
    | none =>
      rw [hb] at hr
      exact absurd hr List.not_mem_nil
    | some b =>
      rw [hb] at hr
      exact ⟨b, rfl, hr⟩
  by_cases hchunked : s.chunkedReq = some r
  · obtain ⟨stop, rest, hbatch, -⟩ := hs.chunked r hchunked
    have hkey : r ∈ batchReqs c := by
      rw [batchReqs, hbatch]
      exact List.mem_cons_self
    rcases h.launch_overlap ho hend hs hkey with ⟨-, hrecorded⟩ | ⟨hne, -⟩
    · exact ⟨(h.chunked r hchunked).2.2, .inl ⟨hchunked, hrecorded⟩⟩
    · exact absurd hchunked hne
  · obtain ⟨hfinishing, hflight⟩ := h.finishing ho b hb r hrb hchunked
    have hnot : r ∉ batchReqs c := fun hkey => by
      rcases h.launch_overlap ho hend hs hkey with ⟨heq, -⟩ | ⟨-, hlast, -⟩
      · exact hchunked heq
      · exact hlast b hb hrb
    exact ⟨hflight, .inr ⟨hchunked, hnot, (unlaunched_reqs hs hnot).2 ▸ hfinishing⟩⟩

/-- The overlap loop keeps the invariant: it processes the batch before the new one. -/
theorem ServerInv.process_overlap (h : ServerInv s) (ho : s.enableOverlap = true)
    (hend : ∀ r ∈ s.chunkedReq, (s.reqs r).tmpEndIdx = (s.reqs r).fillIds.length) (hs : s.Schedules c)
    (hrows : ∀ r ∈ s.lastBatch.getD [],
      AlignedRow s.pageSize (c.rows r) ((s.getNewBatchPrefill c).1.reqs r).fillIds.length) :
    ServerInv { (s.getNewBatchPrefill c).1.processBatchResult c (s.lastBatch.getD []) with
      lastBatch := (s.getNewBatchPrefill c).2
      resultQueue := (s.getNewBatchPrefill c).2.toList } := by
  have hlaunch := fun r (hr : r ∈ batchReqs c) => h.launch_overlap ho hend hs hr
  have hrest := fun r (hr : r ∉ batchReqs c) => unlaunched_reqs hs hr
  have hflight := fun r (hr : r ∈ batchReqs c) => (h.entry hs hr).1
  have hprevious := fun r (hr : r ∈ s.lastBatch.getD []) => h.previous ho hend hs hr
  have hnodup : (s.lastBatch.getD []).Nodup := by
    cases hb : s.lastBatch with
    | none => exact List.nodup_nil
    | some b => exact h.batch_nodup b hb
  -- a request of both batches is the chunked one
  have hboth : ∀ r ∈ batchReqs c, s.chunkedReq ≠ some r → r ∉ s.lastBatch.getD [] := fun r hr hne hlast => by
    rcases (hprevious r hlast).2 with ⟨heq, -⟩ | ⟨-, hnot, -⟩
    · exact hne heq
    · exact hnot hr
  have hchunkedLast : ∀ r, s.chunkedReq = some r → r ∈ s.lastBatch.getD [] := fun r hr => by
    obtain ⟨-, ⟨b, hb, hrb⟩, -⟩ := h.chunked r hr
    rw [show s.lastBatch = some b from hb]
    exact hrb
  rw [processBatchResult_eq c hnodup, (getNewBatchPrefill_frame s c).1]
  dsimp only
  refine ⟨h.page_pos, ?_, fun b hb => ?_, fun r hr => ?_, fun r hr => ?_, fun _ b hb r hr hnext => ?_,
    fun r hr => ?_⟩
  · show _ = if s.enableOverlap then _ else []
    rw [ho]
    rfl
  · rw [(newBatch_eq s c).1 b hb]
    exact hs.distinct
  · obtain ⟨hnot, hfresh, hnext, hlast, hold⟩ := h.waiting_kept hs hr
    have hunprocessed : r ∉ s.lastBatch.getD [] := fun hin => by
      cases hb : s.lastBatch with
      | none =>
        rw [hb] at hin
        exact absurd hin List.not_mem_nil
      | some b =>
        rw [hb] at hin
        exact (h.waiting r (List.mem_filter.mp hr).1).2.2.1 b hb hin
    simp only [if_neg hunprocessed]
    refine ⟨hfresh, hnext, hlast, fun hmem => ?_⟩
    rcases List.mem_append.mp hmem with hmem | hmem
    · exact hold hmem
    · exact hunprocessed (List.mem_filter.mp hmem).1
  · have hmem : r ∈ batchReqs c := by
      by_contra hnot
      exact (hrest r hnot).1 hr
    rw [if_pos ho]
    refine ⟨?_, ⟨_, (newBatch_eq s c).2 r hmem, hmem⟩, fun hin => ?_⟩
    · rcases hlaunch r hmem with ⟨hchunked, hrecorded⟩ | ⟨hne, -, hready, -⟩
      · have hnext := hrecorded.next h.page_pos (c.nextTokenId r) (hrows r (hchunkedLast r hchunked))
        have htrue : decide ((s.getNewBatchPrefill c).1.chunkedReq = some r) = true := decide_eq_true hr
        rw [if_pos htrue] at hnext
        simp only [if_pos (hchunkedLast r hchunked), ho]
        exact hnext
      · simp only [if_neg (hboth r hmem hne)]
        exact hready hr
    · rcases List.mem_append.mp hin with hin | hin
      · exact hflight r hmem hin
      · obtain ⟨hlast, hle⟩ := List.mem_filter.mp hin
        rcases hlaunch r hmem with ⟨-, hrecorded⟩ | ⟨hne, -⟩
        · exact hrecorded.isChunked_pos (of_decide_eq_true hle)
        · exact hboth r hmem hne hlast
  · rw [(newBatch_eq s c).1 b hb] at hr
    refine ⟨?_, fun hin => ?_⟩
    · rcases hlaunch r hr with ⟨hchunked, hrecorded⟩ | ⟨hne, -, -, hready⟩
      · have hstep := hrecorded.next h.page_pos (c.nextTokenId r) (hrows r (hchunkedLast r hchunked))
        rw [if_neg (by simpa using hnext)] at hstep
        simp only [if_pos (hchunkedLast r hchunked), ho]
        exact hstep
      · simp only [if_neg (hboth r hr hne)]
        exact hready hnext
    · rcases List.mem_append.mp hin with hin | hin
      · exact hflight r hr hin
      · obtain ⟨hlast, hle⟩ := List.mem_filter.mp hin
        rcases hlaunch r hr with ⟨-, hrecorded⟩ | ⟨hne, -⟩
        · exact hrecorded.isChunked_pos (of_decide_eq_true hle)
        · exact hboth r hr hne hlast
  · rcases List.mem_append.mp hr with hold | hnew
    · have hnot : r ∉ batchReqs c := fun hmem => hflight r hmem hold
      have hunprocessed : r ∉ s.lastBatch.getD [] := fun hin => (hprevious r hin).1 hold
      simp only [if_neg hunprocessed, (hrest r hnot).2]
      exact h.sent r hold
    · obtain ⟨hlast, hle⟩ := List.mem_filter.mp hnew
      simp only [if_pos hlast, (resultApplied_frame _ _ _ _ _).1]
      rcases (hprevious r hlast).2 with ⟨-, hrecorded⟩ | ⟨-, -, hfinishing⟩
      · exact absurd (of_decide_eq_true hle) hrecorded.isChunked_pos
      · exact hfinishing.tiles h.page_pos (hrows r hlast)

end Server

/-! ## Runs -/

inductive PrefillLabel where
  | arrive (r : Nat) (originInputIds : List Int)
  | iterate (c : PrefillIteration)

def prefillMachine : Machine PrefillServer PrefillLabel where
  step
    | .arrive r originInputIds, s => some (s.arrive r originInputIds)
    | .iterate c, s => some (s.iterate c)

/-- The requests whose results a turn of the loop processes. -/
def resolvedReqs (s : PrefillServer) (c : PrefillIteration) : List Nat :=
  if s.enableOverlap then s.lastBatch.getD [] else batchReqs c

/-- What a row is read from has its pages aligned, and full except the last. -/
structure AlignedRows (s : PrefillServer) (c : PrefillIteration) : Prop where
  cached : ∀ r ∈ s.chunkedReq, AlignedRow s.pageSize c.cachedRow (s.reqs r).fillIds.length
  resolved : ∀ r ∈ resolvedReqs s c, AlignedRow s.pageSize (c.rows r)
    (((s.processPrefillChunk c).getNewBatchPrefill c).1.reqs r).fillIds.length

/-- New requests have a prompt, the scheduler keeps its rules, and the rows are aligned. -/
def ChunksFreely (s : PrefillServer) : PrefillLabel → Prop
  | .arrive r originInputIds => originInputIds ≠ [] ∧ r ∉ s.waitingQueue ∧ s.chunkedReq ≠ some r ∧
      (∀ b ∈ s.lastBatch, r ∉ b) ∧ r ∉ s.inflightQueue
  | .iterate c => (s.processPrefillChunk c).Schedules c ∧ AlignedRows s c

/-- A server before its first request, with either loop and any page size. -/
structure IdleServer (s : PrefillServer) : Prop where
  page_pos : 0 < s.pageSize
  waiting : s.waitingQueue = []
  chunked : s.chunkedReq = none
  last : s.lastBatch = none
  results : s.resultQueue = []
  inflight : s.inflightQueue = []

section Runs

variable {s : PrefillServer} {c : PrefillIteration}

theorem IdleServer.inv (h : IdleServer s) : ServerInv s := by
  refine ⟨h.page_pos, ?_, fun b hb => ?_, fun r hr => ?_, fun r hr => ?_, fun _ b hb => ?_, fun r hr => ?_⟩
  · rw [h.results, h.last, Option.toList_none, ite_self]
  · exact absurd (h.last.symm.trans hb) (by simp)
  · exact absurd (h.waiting ▸ hr) List.not_mem_nil
  · exact absurd (h.chunked.symm.trans hr) (by simp)
  · exact absurd (h.last.symm.trans hb) (by simp)
  · exact absurd (h.inflight ▸ hr) List.not_mem_nil

theorem new_fresh (P : Nat) {originInputIds : List Int} (hne : originInputIds ≠ []) :
    Fresh P (.new P originInputIds) := by
  refine ⟨originInputIds.length, ⟨rfl, rfl, Nat.dvd_zero P, List.length_pos_iff.mpr hne, ?_, rfl, ?_,
    fun call hcall => absurd hcall List.not_mem_nil, fun call hcall => absurd hcall List.not_mem_nil⟩, rfl, rfl⟩
  · exact (Nat.zero_div P).symm
  · exact (Nat.zero_div P).symm

theorem ServerInv.arrive (h : ServerInv s) {r : Nat} {originInputIds : List Int}
    (hg : ChunksFreely s (.arrive r originInputIds)) : ServerInv (s.arrive r originInputIds) := by
  obtain ⟨hne, hwaiting, hchunked, hlast, hflight⟩ := hg
  have hothers : ∀ q, q ≠ r → (s.arrive r originInputIds).reqs q = s.reqs q := fun q hq =>
    Function.update_of_ne hq _ _
  refine ⟨h.page_pos, h.pending, h.batch_nodup, fun q hq => ?_, fun q hq => ?_, fun ho b hb q hq hnext => ?_,
    fun q hq => ?_⟩
  · rcases List.mem_append.mp hq with hold | hnew
    · rw [hothers q fun heq => hwaiting (heq ▸ hold)]
      exact h.waiting q hold
    · obtain rfl := List.mem_singleton.mp hnew
      have hself : (s.arrive q originInputIds).reqs q = .new s.pageSize originInputIds := Function.update_self _ _ _
      rw [hself]
      exact ⟨new_fresh _ hne, hchunked, hlast, hflight⟩
  · rw [hothers q fun heq => hchunked (heq ▸ hq)]
    exact h.chunked q hq
  · rw [hothers q fun heq => hlast b hb (heq ▸ hq)]
    exact h.finishing ho b hb q hq hnext
  · rw [hothers q fun heq => hflight (heq ▸ hq)]
    exact h.sent q hq

theorem iterateNormal_eq (s : PrefillServer) (c : PrefillIteration) :
    s.iterateNormal c = { ((s.processPrefillChunk c).getNewBatchPrefill c).1.processBatchResult c (batchReqs c) with
      lastBatch := ((s.processPrefillChunk c).getNewBatchPrefill c).2 } := by
  unfold PrefillServer.iterateNormal
  rcases (getNewBatchPrefill_frame (s.processPrefillChunk c) c).2 with ⟨hnone, hnil⟩ | hsome
  · simp only [hnone, hnil]
    rfl
  · simp only [hsome]

/-- The batch that the overlap loop processes is the one before. -/
theorem iterateOverlap_eq (hinv : ServerInv (s.processPrefillChunk c))
    (ho : (s.processPrefillChunk c).enableOverlap = true)
    (hlast : (s.processPrefillChunk c).lastBatch = s.lastBatch) :
    s.iterateOverlap c = { ((s.processPrefillChunk c).getNewBatchPrefill c).1.processBatchResult c
        (s.lastBatch.getD []) with
      lastBatch := ((s.processPrefillChunk c).getNewBatchPrefill c).2
      resultQueue := ((s.processPrefillChunk c).getNewBatchPrefill c).2.toList } := by
  have hpending : ((s.processPrefillChunk c).getNewBatchPrefill c).1.resultQueue = s.lastBatch.toList := by
    rw [(getNewBatchPrefill_frame (s.processPrefillChunk c) c).1, hinv.pending, if_pos ho, hlast]
  have hnodup : ∀ b ∈ s.lastBatch, b.Nodup := hlast ▸ hinv.batch_nodup
  unfold PrefillServer.iterateOverlap
  cases hb : s.lastBatch with
  | none =>
    rw [hb] at hpending
    simp only [hpending, Option.toList_none, List.nil_append, Option.getD_none]
    rfl
  | some b =>
    rw [hb] at hpending
    simp only [hpending, Option.toList_some, List.singleton_append, Option.getD_some]
    rw [processBatchResult_eq c (hnodup b hb), processBatchResult_eq c (hnodup b hb)]

/-- A turn of either loop keeps the invariant. -/
theorem ServerInv.iterate (h : ServerInv s) (hg : ChunksFreely s (.iterate c)) : ServerInv (s.iterate c) := by
  obtain ⟨hs, hcached, hresolved⟩ := hg
  obtain ⟨reqs, hchunk, hinv, hend⟩ := h.processPrefillChunk hcached
  have hoverlap : (s.processPrefillChunk c).enableOverlap = s.enableOverlap := by rw [hchunk]
  have hpage : (s.processPrefillChunk c).pageSize = s.pageSize := by rw [hchunk]
  have hlast : (s.processPrefillChunk c).lastBatch = s.lastBatch := by rw [hchunk]
  have hinv' : ServerInv (s.processPrefillChunk c) := hchunk ▸ hinv
  unfold PrefillServer.iterate
  by_cases ho : s.enableOverlap = true
  · rw [resolvedReqs, if_pos ho] at hresolved
    rw [if_pos ho, iterateOverlap_eq hinv' (hoverlap.trans ho) hlast, ← hlast]
    rw [← hpage, ← hlast] at hresolved
    refine hinv'.process_overlap (hoverlap.trans ho) ?_ hs hresolved
    rw [hchunk]
    exact hend ho
  · rw [resolvedReqs, if_neg ho] at hresolved
    rw [if_neg ho, iterateNormal_eq]
    rw [← hpage] at hresolved
    exact hinv'.process_normal (hoverlap.trans (by simpa using ho)) hs hresolved

theorem serverInv_of_reach (h : prefillMachine.Reach ChunksFreely IdleServer s) : ServerInv s := by
  refine h.invariant (fun _ => IdleServer.inv) ?_
  intro s s' label hinv hguard hstep
  cases label with
  | arrive r originInputIds =>
    cases hstep
    exact hinv.arrive hguard
  | iterate c =>
    cases hstep
    exact hinv.iterate hguard

/-- A request whose calls are not complete has sent pages from the first on, and said of none that it is
the last. -/
theorem ServerInv.unfinished (h : ServerInv s) {r : Nat}
    (hr : r ∈ s.waitingQueue ∨ s.chunkedReq = some r ∨ ∃ b ∈ s.resultQueue, r ∈ b) :
    ∃ n upTo, SentTo s.pageSize n upTo (s.reqs r) := by
  have hchunked : s.chunkedReq = some r → ∃ n upTo, SentTo s.pageSize n upTo (s.reqs r) := fun hnext => by
    obtain ⟨⟨n, upTo, hsent, -⟩, -⟩ := h.chunked r hnext
    exact ⟨n, upTo, hsent⟩
  rcases hr with hwaiting | hnext | ⟨b, hb, hrb⟩
  · obtain ⟨⟨n, hsent, -⟩, -⟩ := h.waiting r hwaiting
    exact ⟨n, 0, hsent⟩
  · exact hchunked hnext
  · by_cases hnext : s.chunkedReq = some r
    · exact hchunked hnext
    · rw [h.pending] at hb
      split at hb
      next ho =>
        obtain ⟨⟨n, upTo, hsent, -⟩, -⟩ := h.finishing ho b (Option.mem_toList.mp hb) r hrb hnext
        exact ⟨n, upTo, hsent⟩
      next => exact absurd hb List.not_mem_nil

/-- In every run, of either loop, the calls of a request in flight tile the pages of its prompt and the
last one alone says so, each of them moves its pages to the decode side's pages of the same numbers, and a
request that is not in flight has sent pages from the first on, none of them as the last. -/
theorem chunks_tile_prompt (h : prefillMachine.Reach ChunksFreely IdleServer s) :
    (∀ r ∈ s.inflightQueue,
      TilesPrompt s.pageSize (s.reqs r).originInputIds.length (s.reqs r).sender.calls ∧
      ∀ (dstRow : List Int) (dstPage : Nat → Int), (s.reqs r).originInputIds.length ≤ dstRow.length →
        FillsPages s.pageSize dstPage (dstRow.take (s.reqs r).originInputIds.length) →
        ∀ call ∈ (s.reqs r).sender.calls,
          transferPairs call.2 (kvToPageIndices (dstRow.take (s.reqs r).originInputIds.length) s.pageSize) =
            call.2.prefillKvIndices.zip
              ((List.range' call.2.start (call.2.stop - call.2.start)).map dstPage)) ∧
    ∀ r, (r ∈ s.waitingQueue ∨ s.chunkedReq = some r ∨ ∃ b ∈ s.resultQueue, r ∈ b) →
      ∃ n upTo, SentTo s.pageSize n upTo (s.reqs r) := by
  have hinv := serverInv_of_reach h
  refine ⟨fun r hr => ⟨hinv.sent r hr, fun dstRow dstPage hlen hdst call hcall => ?_⟩, fun r => hinv.unfinished⟩
  exact transferPairs_eq hinv.page_pos (hinv.sent r hr) hcall hlen hdst

/-- Five tokens in pages of two, by the overlap loop. -/
def fiveTokenServer : PrefillServer := ⟨true, 2, fun _ => .new 2 [], [], none, none, [], []⟩

def fiveTokenRow : List Int := [0, 1, 2, 3, 4]

/-- A turn that launches the batch. -/
def fiveTokenTurn (batch : List (Nat × Nat)) : PrefillIteration :=
  ⟨fiveTokenRow, batch, fun _ => fiveTokenRow, fun _ => 1⟩

theorem fiveTokenRow_ok {n : Nat} (hn : n ≤ 5) : AlignedRow 2 fiveTokenRow n := by
  have hfive : AlignedRow 2 fiveTokenRow 5 := ⟨Nat.le_refl 5, fun j => j, fun i hi => by
    have hlt : i < 5 := hi
    interval_cases i <;> rfl⟩
  exact hfive.mono hn

/-- A chunk of three tokens, the other two, and the last results. -/
theorem fiveTokens_reached : prefillMachine.Reach ChunksFreely IdleServer
    ((((fiveTokenServer.arrive 0 [7, 8, 9, 10, 11]).iterate (fiveTokenTurn [(0, 3)])).iterate
      (fiveTokenTurn [(0, 5)])).iterate (fiveTokenTurn [])) := by
  have hstart : prefillMachine.Reach ChunksFreely IdleServer fiveTokenServer :=
    .start ⟨by decide, rfl, rfl, rfl, rfl, rfl⟩
  have harrive : ChunksFreely fiveTokenServer (.arrive 0 [7, 8, 9, 10, 11]) :=
    ⟨by decide, by decide, by decide, (fun b hb => by cases hb), by decide⟩
  have hfirst : ChunksFreely (fiveTokenServer.arrive 0 [7, 8, 9, 10, 11])
      (.iterate (fiveTokenTurn [(0, 3)])) :=
    ⟨⟨by decide, (fun r hr => by cases hr), by decide, by decide, by decide⟩, (fun r hr => by cases hr),
      fun r hr => absurd hr List.not_mem_nil⟩
  have hsecond : ChunksFreely
      ((fiveTokenServer.arrive 0 [7, 8, 9, 10, 11]).iterate (fiveTokenTurn [(0, 3)]))
      (.iterate (fiveTokenTurn [(0, 5)])) := by
    refine ⟨⟨by decide, fun r hr => ?_, by decide, by decide, by decide⟩, fun r hr => ?_, fun r hr => ?_⟩
    · cases hr
      exact ⟨5, [], rfl, by decide⟩
    · cases hr
      exact fiveTokenRow_ok (by decide)
    · obtain rfl := List.mem_singleton.mp hr
      exact fiveTokenRow_ok (by decide)
  have hthird : ChunksFreely
      (((fiveTokenServer.arrive 0 [7, 8, 9, 10, 11]).iterate (fiveTokenTurn [(0, 3)])).iterate
        (fiveTokenTurn [(0, 5)])) (.iterate (fiveTokenTurn [])) := by
    refine ⟨⟨by decide, (fun r hr => by cases hr), by decide, by decide, by decide⟩, (fun r hr => by cases hr),
      fun r hr => ?_⟩
    obtain rfl := List.mem_singleton.mp hr
    exact fiveTokenRow_ok (by decide)
  exact .step (.step (.step (.step hstart harrive rfl) hfirst rfl) hsecond rfl) hthird rfl

theorem chunks_tile_fiveTokens : ∃ s, prefillMachine.Reach ChunksFreely IdleServer s ∧
    TilesPrompt s.pageSize (s.reqs 0).originInputIds.length (s.reqs 0).sender.calls ∧
    (s.reqs 0).sender.calls.map Prod.snd = [⟨[0], 0, 1, false⟩, ⟨[1, 2], 1, 3, true⟩] :=
  ⟨_, fiveTokens_reached, ((chunks_tile_prompt fiveTokens_reached).1 0 (by decide)).1, by decide⟩

end Runs

end QCFuse.Guarantees
