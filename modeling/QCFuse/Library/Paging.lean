import Mathlib.Data.List.GetD
import Mathlib.Data.List.Nodup
import Mathlib.Data.Nat.ModEq
import Mathlib.Tactic.Ring
import Mathlib.Tactic.Linarith
import QCFuse.Library.Slices

/-!
# Pages and consecutive stores

Token counts rounded up to pages, slots as a page and an offset in it, and stores that fill
an array block after block.
-/

set_option autoImplicit false

namespace QCFuse.Library

/-! ## Counting pages -/

/-- Pages that `n` tokens touch. -/
def pagesOf (P n : Nat) : Nat := (n + P - 1) / P

theorem pagesOf_eq {P : Nat} (hP : 0 < P) (n : Nat) :
    pagesOf P n = n / P + if n % P = 0 then 0 else 1 := by
  have hn := Nat.div_add_mod n P
  have hr := Nat.mod_lt n hP
  unfold pagesOf
  split
  next h =>
    rw [h, Nat.add_zero] at hn
    rw [show n + P - 1 = P - 1 + P * (n / P) by omega, Nat.add_mul_div_left _ _ hP,
      Nat.div_eq_of_lt (by omega), Nat.zero_add, Nat.add_zero]
  next h =>
    rw [show n + P - 1 = n % P - 1 + P * (n / P + 1) by rw [Nat.mul_add]; omega,
      Nat.add_mul_div_left _ _ hP, Nat.div_eq_of_lt (by omega), Nat.zero_add]

/-- The tokens up to the end of the last page touched. -/
theorem pagesOf_mul {P : Nat} (hP : 0 < P) (n : Nat) :
    pagesOf P n * P = n / P * P + if n % P = 0 then 0 else P := by
  rw [pagesOf_eq hP, Nat.add_mul]
  split <;> omega

theorem le_pagesOf_mul {P : Nat} (hP : 0 < P) (n : Nat) : n ≤ pagesOf P n * P := by
  have hn := Nat.div_add_mod' n P
  have hr := Nat.mod_lt n hP
  rw [pagesOf_mul hP]
  split <;> omega

theorem pagesOf_mul_lt {P : Nat} (hP : 0 < P) (n : Nat) : pagesOf P n * P < n + P := by
  have hn := Nat.div_add_mod' n P
  rw [pagesOf_mul hP]
  split <;> omega

theorem pagesOf_mono {P : Nat} (m n : Nat) (h : m ≤ n) : pagesOf P m ≤ pagesOf P n :=
  Nat.div_le_div_right (by omega)

/-- Growing from `m` to `n` tokens opens at most one page more than the whole pages added. -/
theorem pagesOf_sub_le {P : Nat} (hP : 0 < P) {m n : Nat} (h : m ≤ n) :
    pagesOf P n - pagesOf P m ≤ (n - m) / P + 1 := by
  have hm := le_pagesOf_mul hP m
  have hn := pagesOf_mul_lt hP n
  have hd : n - m < (n - m) / P * P + P := Nat.lt_div_mul_add hP
  generalize (n - m) / P = d at hd ⊢
  by_contra hlt
  have hpages : pagesOf P m + (d + 2) ≤ pagesOf P n := by omega
  have hmul := Nat.mul_le_mul_right P hpages
  rw [Nat.add_mul, Nat.add_mul] at hmul
  omega

theorem pagesOf_pred {P n : Nat} (hP : 1 < P) (hn : 0 < n) :
    pagesOf P n - pagesOf P (n - 1) = if n % P = 1 then 1 else 0 := by
  obtain ⟨m, rfl⟩ : ∃ m, n = m + 1 := ⟨n - 1, by omega⟩
  have hm := Nat.mod_lt m (show 0 < P by omega)
  have hsplit := Nat.div_add_mod m P
  rw [Nat.add_sub_cancel, pagesOf_eq (by omega), pagesOf_eq (by omega)]
  by_cases hlast : m % P + 1 = P
  · have hnext : m + 1 = P * (m / P + 1) := by rw [Nat.mul_add]; omega
    have hdiv : (m + 1) / P = m / P + 1 := by rw [hnext, Nat.mul_div_cancel_left _ (by omega)]
    have hmod : (m + 1) % P = 0 := by rw [hnext, Nat.mul_mod_right]
    have hzero : ¬ m % P = 0 := by omega
    simp only [hdiv, hmod, hzero]
    simp
  · have hnext : m + 1 = m % P + 1 + P * (m / P) := by omega
    have hdiv : (m + 1) / P = m / P := by
      rw [hnext, Nat.add_mul_div_left _ _ (by omega), Nat.div_eq_of_lt (by omega), Nat.zero_add]
    have hmod : (m + 1) % P = m % P + 1 := by
      conv_lhs => rw [hnext]
      rw [Nat.add_mul_mod_self_left, Nat.mod_eq_of_lt (by omega)]
    rw [hdiv, hmod, if_neg (Nat.succ_ne_zero _)]
    by_cases h0 : m % P = 0
    · rw [if_pos h0, if_pos (by omega)]
      omega
    · rw [if_neg h0, if_neg (by omega)]
      omega

/-! ## Slots -/

theorem slot_page {P : Nat} (g : Int) {k : Nat} (hk : k < P) : (g * P + (k : Int)) / (P : Int) = g := by
  have hP : (P : Int) ≠ 0 := by omega
  rw [Int.add_comm, Int.add_mul_ediv_right _ _ hP, Int.ediv_eq_zero_of_lt (by omega) (by omega), Int.zero_add]

/-- The pages of slots that fill page after page. -/
def pagesIn (P : Nat) (slots : List Int) : List Int :=
  (List.range (pagesOf P slots.length)).map fun i => slots.getD (i * P) 0 / P

/-- Slot `i` lies at offset `i % P` of page `i / P` of some pages. -/
def FillsPages (P : Nat) (page : Nat → Int) (slots : List Int) : Prop :=
  ∀ (i : Nat) (h : i < slots.length), slots[i] = page (i / P) * P + (i % P : Nat)

/-- The slots fill page after page. -/
def InPages (P : Nat) (slots : List Int) : Prop := ∃ page, FillsPages P page slots

theorem inPages_nil (P : Nat) : InPages P [] := ⟨fun _ => 0, fun i h => absurd h (Nat.not_lt_zero i)⟩

theorem pagesIn_nil {P : Nat} (hP : 0 < P) : pagesIn P [] = [] := by
  rw [pagesIn, List.length_nil, pagesOf_eq hP]
  simp

theorem lt_pagesOf {P : Nat} (hP : 0 < P) {i n : Nat} : i < pagesOf P n ↔ i * P < n := by
  have hle := le_pagesOf_mul hP n
  have hlt := pagesOf_mul_lt hP n
  constructor
  · intro h
    have hmul := Nat.mul_le_mul_right P (Nat.succ_le_of_lt h)
    rw [Nat.succ_mul] at hmul
    omega
  · intro h
    by_contra hge
    have hmul := Nat.mul_le_mul_right P (Nat.le_of_not_lt hge)
    omega

/-- What lies behind a page that is begun may do with fewer pages. -/
theorem pagesOf_sub_pagesOf {P : Nat} (hP : 0 < P) {m n : Nat} (h : m ≤ n) :
    pagesOf P n - pagesOf P m ≤ pagesOf P (n - m) := by
  by_contra hlt
  have hpages := (lt_pagesOf hP).mp (show pagesOf P m + pagesOf P (n - m) < pagesOf P n by omega)
  have hm := le_pagesOf_mul hP m
  have hd := le_pagesOf_mul hP (n - m)
  rw [Nat.add_mul] at hpages
  omega

/-- Whole pages that fit do so when rounded up. -/
theorem pages_fit {P wanted n : Nat} {room : Int} (hP : 0 < P) (hdvd : (P : Int) ∣ room)
    (h : ((wanted * P + n : Nat) : Int) ≤ room) : (((wanted + pagesOf P n) * P : Nat) : Int) ≤ room := by
  obtain ⟨k, rfl⟩ := hdvd
  have hlt := pagesOf_mul_lt hP n
  have hpages : (((wanted + pagesOf P n : Nat) : Int)) < k + 1 := by
    refine lt_of_mul_lt_mul_right ?_ (Int.natCast_nonneg P)
    push_cast at h ⊢
    have : ((pagesOf P n * P : Nat) : Int) < n + P := by exact_mod_cast hlt
    push_cast at this
    linarith
  rw [Nat.cast_mul, mul_comm (P : Int) k]
  exact mul_le_mul_of_nonneg_right (by omega) (Int.natCast_nonneg P)

theorem pagesOf_add {P : Nat} (hP : 0 < P) {m : Nat} (hm : P ∣ m) (n : Nat) :
    pagesOf P (m + n) = m / P + pagesOf P n := by
  obtain ⟨k, rfl⟩ := hm
  rw [pagesOf, pagesOf, Nat.mul_div_cancel_left _ hP, Nat.add_assoc, Nat.add_sub_assoc (by omega),
    Nat.mul_add_div hP]

section Filling

variable {P : Nat} {page : Nat → Int} {xs ys slots : List Int}

theorem FillsPages.pagesIn_eq (hP : 0 < P) (h : FillsPages P page slots) :
    pagesIn P slots = (List.range (pagesOf P slots.length)).map page := by
  refine List.map_congr_left fun i hi => ?_
  have hlt := (lt_pagesOf hP).mp (List.mem_range.mp hi)
  rw [List.getD_eq_getElem _ _ hlt, h _ hlt, Nat.mul_div_cancel _ hP, Nat.mul_mod_left,
    slot_page _ hP]

theorem pagesIn_append (hP : 0 < P) (hxs : P ∣ xs.length) (ys : List Int) :
    pagesIn P (xs ++ ys) = pagesIn P xs ++ pagesIn P ys := by
  have hcount : pagesOf P xs.length = xs.length / P := by
    rw [pagesOf_eq hP, if_pos (Nat.mod_eq_zero_of_dvd hxs), Nat.add_zero]
  rw [pagesIn, List.length_append, pagesOf_add hP hxs, List.range_add, List.map_append, List.map_map,
    pagesIn, pagesIn, hcount]
  congr 1
  · refine List.map_congr_left fun i hi => ?_
    have hlt : i * P < xs.length := (lt_pagesOf hP).mp (hcount ▸ List.mem_range.mp hi)
    rw [List.getD_append _ _ _ _ hlt]
  · refine List.map_congr_left fun i _ => ?_
    have hpos : (xs.length / P + i) * P = xs.length + i * P := by
      rw [Nat.add_mul, Nat.div_mul_cancel hxs]
    rw [Function.comp_apply, hpos, List.getD_append_right _ _ _ _ (Nat.le_add_right _ _),
      Nat.add_sub_cancel_left]

/-- Cut at a page, the pages of the two parts are those of the whole. -/
theorem pagesIn_split (hP : 0 < P) {n : Nat} (hn : P ∣ n) (slots : List Int) :
    pagesIn P slots = pagesIn P (slots.take n) ++ pagesIn P (slots.drop n) := by
  rcases Nat.lt_or_ge slots.length n with hlt | hge
  · rw [List.take_of_length_le hlt.le, List.drop_of_length_le hlt.le, pagesIn_nil hP, List.append_nil]
  · have hlen : P ∣ (slots.take n).length := by rwa [List.length_take_of_le hge]
    rw [← pagesIn_append hP hlen, List.take_append_drop]

theorem InPages.append (hP : 0 < P) (hxs : P ∣ xs.length) (h : InPages P xs) (h' : InPages P ys) :
    InPages P (xs ++ ys) := by
  obtain ⟨page, hpage⟩ := h
  obtain ⟨page', hpage'⟩ := h'
  obtain ⟨k, hk⟩ := hxs
  refine ⟨fun j => if j < k then page j else page' (j - k), fun i hi => ?_⟩
  rcases Nat.lt_or_ge i xs.length with hlt | hge
  · have hdiv : i / P < k := (Nat.div_lt_iff_lt_mul hP).mpr (by rw [Nat.mul_comm]; omega)
    rw [List.getElem_append_left hlt, hpage i hlt]
    simp only [if_pos hdiv]
  · obtain ⟨j, rfl⟩ := Nat.exists_eq_add_of_le hge
    have hdiv : (xs.length + j) / P = k + j / P := by rw [hk, Nat.mul_add_div hP]
    have hmod : (xs.length + j) % P = j % P := by rw [hk, Nat.mul_add_mod]
    have hlt : j < ys.length := by rw [List.length_append] at hi; omega
    rw [List.getElem_append_right hge, hdiv, hmod]
    simp only [Nat.add_sub_cancel_left, if_neg (Nat.not_lt.mpr (Nat.le_add_right k (j / P)))]
    exact hpage' j hlt

theorem InPages.take (h : InPages P slots) (n : Nat) : InPages P (slots.take n) := by
  obtain ⟨page, hpage⟩ := h
  refine ⟨page, fun i hi => ?_⟩
  rw [List.getElem_take]
  exact hpage i _

theorem InPages.drop (hP : 0 < P) (h : InPages P slots) {n : Nat} (hn : P ∣ n) :
    InPages P (slots.drop n) := by
  obtain ⟨page, hpage⟩ := h
  obtain ⟨k, rfl⟩ := hn
  refine ⟨fun j => page (k + j), fun i hi => ?_⟩
  rw [List.getElem_drop, hpage, Nat.mul_add_div hP, Nat.mul_add_mod]

theorem InPages.page_mem (hP : 0 < P) (h : InPages P slots) {x : Int} (hx : x ∈ slots) :
    x / (P : Int) ∈ pagesIn P slots := by
  obtain ⟨page, hpage⟩ := h
  obtain ⟨i, hi, rfl⟩ := List.mem_iff_getElem.mp hx
  rw [hpage.pagesIn_eq hP, hpage i hi, slot_page _ (Nat.mod_lt i hP)]
  refine List.mem_map_of_mem (List.mem_range.mpr ((lt_pagesOf hP).mpr ?_))
  exact (Nat.div_mul_le_self i P).trans_lt hi

/-- From within a page on, the pages are those from the start of that page on. -/
theorem InPages.mem_pages_drop (hP : 0 < P) (h : InPages P slots) {n : Nat} (hn : n < slots.length)
    (g : Int) : (∃ x ∈ slots.drop n, x / (P : Int) = g) ↔ g ∈ pagesIn P (slots.drop (n / P * P)) := by
  have hstart : slots.drop n = (slots.drop (n / P * P)).drop (n % P) := by
    rw [List.drop_drop, Nat.div_add_mod']
  have hrest := h.drop hP (Nat.dvd_mul_left P (n / P))
  constructor
  · rintro ⟨x, hx, rfl⟩
    refine hrest.page_mem hP ?_
    rw [hstart] at hx
    exact List.mem_of_mem_drop hx
  · intro hg
    obtain ⟨page, hpage⟩ := hrest
    rw [hpage.pagesIn_eq hP] at hg
    obtain ⟨j, hj, rfl⟩ := List.mem_map.mp hg
    have hlen : (slots.drop (n / P * P)).length = slots.length - n / P * P := List.length_drop
    have hlt := (lt_pagesOf hP).mp (List.mem_range.mp hj)
    have hmod := Nat.mod_lt n hP
    have hdivmod := Nat.div_add_mod' n P
    -- the first slot of the page, or for the first page the one at `n`
    have hwhere : ∃ i, n % P ≤ i ∧ i < (slots.drop (n / P * P)).length ∧ i / P = j := by
      rcases Nat.eq_zero_or_pos j with rfl | hpos
      · exact ⟨n % P, le_rfl, by omega, Nat.div_eq_of_lt hmod⟩
      · have hge : P ≤ j * P := Nat.le_mul_of_pos_left P hpos
        exact ⟨j * P, by omega, hlt, Nat.mul_div_cancel j hP⟩
    obtain ⟨i, hi, hil, hij⟩ := hwhere
    refine ⟨(slots.drop (n / P * P))[i], ?_, ?_⟩
    · rw [hstart]
      refine List.mem_iff_getElem.mpr ⟨i - n % P, by rw [List.length_drop]; omega, ?_⟩
      rw [List.getElem_drop]
      congr 1
      omega
    · rw [hpage i hil, hij, slot_page _ (Nat.mod_lt i hP)]

/-- A slot has the offset of its position. -/
def OnOffsets (P : Nat) (slots : List Int) : Prop :=
  ∀ (i : Nat) (h : i < slots.length), slots[i] % (P : Int) = (i % P : Nat)

theorem InPages.onOffsets (h : InPages P slots) : OnOffsets P slots := by
  obtain ⟨page, hpage⟩ := h
  intro i hi
  rw [hpage i hi, Int.mul_comm, Int.mul_add_emod_self_left, Int.natCast_mod, Int.emod_emod_of_dvd _ (dvd_refl _)]

theorem OnOffsets.take (h : OnOffsets P slots) (n : Nat) : OnOffsets P (slots.take n) := by
  intro i hi
  rw [List.getElem_take]
  exact h i _

theorem OnOffsets.append (hxs : P ∣ xs.length) (h : OnOffsets P xs) (h' : OnOffsets P ys) :
    OnOffsets P (xs ++ ys) := by
  intro i hi
  rcases Nat.lt_or_ge i xs.length with hlt | hge
  · rw [List.getElem_append_left hlt]
    exact h i hlt
  · obtain ⟨j, rfl⟩ := Nat.exists_eq_add_of_le hge
    have hlt : j < ys.length := by rw [List.length_append] at hi; omega
    have hmod : (xs.length + j) % P = j % P := by
      obtain ⟨k, hk⟩ := hxs
      rw [hk, Nat.mul_add_mod]
    rw [List.getElem_append_right hge, hmod]
    simp only [Nat.add_sub_cancel_left]
    exact h' j hlt

/-- A list on its offsets stays so with slots of another one in their places. -/
theorem OnOffsets.overwrite (h : OnOffsets P xs) (h' : OnOffsets P ys) (hlen : ys.length ≤ xs.length) (n : Nat) :
    OnOffsets P (overwrite xs n (ys.drop n)) := by
  rw [overwrite_drop]
  split
  next hle =>
    intro i hi
    have hfront : (xs.take n ++ ys.drop n).length = ys.length := by
      rw [List.length_append, List.length_take, List.length_drop]
      omega
    have htake : (xs.take n).length = n := List.length_take_of_le (by omega)
    rcases Nat.lt_or_ge i ys.length with hlt | hge
    · rw [List.getElem_append_left (by omega)]
      rcases Nat.lt_or_ge i n with hin | hout
      · rw [List.getElem_append_left (by omega), List.getElem_take]
        exact h i _
      · rw [List.getElem_append_right (by omega), List.getElem_drop]
        simp only [htake, Nat.add_sub_cancel' hout]
        exact h' i hlt
    · rw [List.getElem_append_right (by omega), List.getElem_drop]
      simp only [hfront, Nat.add_sub_cancel' hge]
      exact h i _
  next => exact h

end Filling

/-! ## Consecutive stores -/

variable {α : Type}

/-- One store after the other. -/
def scatter (out : List α) (stores : List (Nat × α)) : List α :=
  stores.foldl (fun out store => out.set store.1 store.2) out

/-- The stores of `vals` at `at`, `at + 1`, …. -/
def block : Nat → List α → List (Nat × α)
  | _, [] => []
  | at_, v :: vals => (at_, v) :: block (at_ + 1) vals

theorem block_append (at_ : Nat) (xs ys : List α) :
    block at_ (xs ++ ys) = block at_ xs ++ block (at_ + xs.length) ys := by
  induction xs generalizing at_ with
  | nil => rfl
  | cons x xs ih =>
    rw [List.cons_append, block, ih, List.length_cons, block, List.cons_append]
    congr 3
    omega

theorem block_map_range (at_ n : Nat) (f : Nat → α) :
    (List.range n).map (fun k => (at_ + k, f k)) = block at_ ((List.range n).map f) := by
  induction n generalizing at_ f with
  | zero => rfl
  | succ n ih =>
    rw [List.range_succ, List.map_append, List.map_append, block_append, ih, List.length_map,
      List.length_range]
    rfl

theorem scatter_append (out : List α) (xs ys : List (Nat × α)) :
    scatter out (xs ++ ys) = scatter (scatter out xs) ys := List.foldl_append

/-- A block stored right behind what is already filled. -/
theorem scatter_block (filled rest vals : List α) (h : vals.length ≤ rest.length) :
    scatter (filled ++ rest) (block filled.length vals) = filled ++ vals ++ rest.drop vals.length := by
  induction vals generalizing filled rest with
  | nil => simp [scatter, block]
  | cons v vals ih =>
    cases rest with
    | nil => simp at h
    | cons r rest =>
      have hstep : scatter (filled ++ r :: rest) (block filled.length (v :: vals)) =
          scatter ((filled ++ [v]) ++ rest) (block (filled ++ [v]).length vals) := by
        simp [scatter, block]
      rw [hstep, ih (filled ++ [v]) rest (by simpa using h)]
      simp

/-- Programs that each fill the place behind the pieces of the programs before them. -/
theorem scatter_programs (out : List α) (pieces : List (List α)) (program : Nat → List (Nat × α))
    (hprogram : ∀ (i : Nat) (h : i < pieces.length),
      program i = block (pieces.take i).flatten.length pieces[i])
    (hlen : pieces.flatten.length ≤ out.length) :
    scatter out ((List.range pieces.length).flatMap program) =
      pieces.flatten ++ out.drop pieces.flatten.length := by
  have hstores : ∀ i ≤ pieces.length,
      (List.range i).flatMap program = block 0 (pieces.take i).flatten := by
    intro i hi
    induction i with
    | zero => rfl
    | succ i ih =>
      rw [List.range_succ, List.flatMap_append, ih (by omega), List.flatMap_singleton,
        hprogram i hi, List.take_succ_eq_append_getElem hi, List.flatten_append, block_append]
      simp
  rw [hstores _ le_rfl, List.take_length]
  exact scatter_block [] out pieces.flatten hlen

/-- The lanes `< n` of `m` lanes. -/
theorem filter_range {m n : Nat} (h : n ≤ m) :
    (List.range m).filter (· < n) = List.range n := by
  induction m with
  | zero =>
    rw [Nat.le_zero.mp h]
    rfl
  | succ m ih =>
    rw [List.range_succ, List.filter_append]
    by_cases hn : n = m + 1
    · subst hn
      rw [List.filter_eq_self.mpr fun k hk => by
        have := List.mem_range.mp hk
        exact decide_eq_true (by omega), List.range_succ]
      simp
    · rw [ih (by omega)]
      simp
      omega

end QCFuse.Library
