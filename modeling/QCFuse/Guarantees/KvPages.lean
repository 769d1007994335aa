import QCFuse.Guarantees.PagedAllocation
import QCFuse.Guarantees.RadixPaths
import QCFuse.Source.RequestPool

/-!
# Pages of the tree, the pool and the requests

What the walks, the evictions and the calls of `free` and `alloc` do to pages: an insertion takes
the pages behind what is present, a call of `free` gives back the pages its slots lie in, and an
allocation extends slots that fill their pages by slots that go on filling them.
-/

set_option autoImplicit false

namespace QCFuse.Guarantees

open QCFuse.Library QCFuse.Source

/-! ## Pages of the tree -/

section Tree

variable {Tok : Type} {P newId n : Nat} {w : Option (List Int)} {key : RadixKey Tok} {s : List Int}
  {f f' : Children Tok}

/-- The pages of the values in the tree. -/
def treePages (P : Nat) (f : Children Tok) : List Int := (f.nodes.map (·.value)).flatMap (pagesIn P)

@[simp] theorem treePages_nil (P : Nat) : treePages P (.nil : Children Tok) = [] := rfl

@[simp] theorem treePages_cons (P : Nat) (childKey : ChildKey Tok) (node : TreeNode Tok)
    (below rest : Children Tok) : treePages P (.cons childKey node below rest) =
      pagesIn P node.value ++ (treePages P below ++ treePages P rest) := by
  simp [treePages, Forest.nodes]

/-- The values in the tree fill their pages. -/
def NodesInPages (P : Nat) (f : Children Tok) : Prop := ∀ node ∈ f.nodes, InPages P node.value

theorem nodesInPages_cons {childKey : ChildKey Tok} {node : TreeNode Tok} {below rest : Children Tok} :
    NodesInPages P (.cons childKey node below rest) ↔
      InPages P node.value ∧ NodesInPages P below ∧ NodesInPages P rest := by
  simp only [NodesInPages, Forest.nodes, List.mem_cons, List.mem_append]
  constructor
  · exact fun h => ⟨h node (.inl rfl), fun d hd => h d (.inr (.inl hd)), fun d hd => h d (.inr (.inr hd))⟩
  · rintro ⟨hnode, hbelow, hrest⟩ d (rfl | hd | hd)
    · exact hnode
    · exact hbelow d hd
    · exact hrest d hd

theorem nodesInPages_nil (P : Nat) : NodesInPages P (.nil : Children Tok) := fun d hd => by cases hd

theorem drop_whole_value (hvalue : ∀ value, w = some value → value.length = key.len) :
    (w.getD []).drop key.len = [] := by
  cases w with
  | none => exact List.drop_nil
  | some value => exact List.drop_of_length_le (hvalue value rfl).le

/-- A walk keeps the pages of the tree and adds those of the new leaf. -/
theorem Walk.pages (hP : 0 < P) (h : Walk P newId w key n s f f') (hshape : Shaped P f)
    (hvalue : ∀ value, w = some value → value.length = key.len) (hleaf : InPages P ((w.getD []).drop n))
    (hnodes : NodesInPages P f) :
    NodesInPages P f' ∧ (treePages P f').Perm (treePages P f ++ pagesIn P ((w.getD []).drop n)) := by
  induction h with
  | missing key => exact ⟨hnodes, by simp [pagesIn_nil hP]⟩
  | added now key value =>
    refine ⟨nodesInPages_cons.mpr ⟨by simpa [newLeaf] using hleaf, nodesInPages_nil P, nodesInPages_nil P⟩, ?_⟩
    simp [newLeaf]
  | @next w key n s childKey node below rest rest' _ _ ih =>
    obtain ⟨_, _, _, hrest, _⟩ := hshape.cons
    obtain ⟨hnode, hbelow, hnodesRest⟩ := nodesInPages_cons.mp hnodes
    obtain ⟨hkept, hperm⟩ := ih hrest hvalue hleaf hnodesRest
    refine ⟨nodesInPages_cons.mpr ⟨hnode, hbelow, hkept⟩, ?_⟩
    rw [treePages_cons, treePages_cons, List.append_assoc, List.append_assoc]
    exact (hperm.append_left _).append_left _
  | @whole w key node now below rest heq =>
    obtain ⟨hnode, hbelow, hrest⟩ := nodesInPages_cons.mp hnodes
    refine ⟨nodesInPages_cons.mpr ⟨hnode, hbelow, hrest⟩, ?_⟩
    rw [drop_whole_value hvalue, pagesIn_nil hP, List.append_nil]
    exact List.Perm.refl _
  | @deeper w key n s node now below below' rest hpre hlt _ ih =>
    obtain ⟨hshapeNode, _, hshapeBelow, _, _⟩ := hshape.cons
    obtain ⟨hnode, hbelow, hrest⟩ := nodesInPages_cons.mp hnodes
    have hdrop : ((w.map (·.drop node.key.len)).getD []).drop n = (w.getD []).drop (node.key.len + n) := by
      cases w with
      | none => simp
      | some value => simp [List.drop_drop]
    obtain ⟨hkept, hperm⟩ := ih hshapeBelow (by
      intro value hval
      obtain ⟨whole, rfl, rfl⟩ := Option.map_eq_some_iff.mp hval
      rw [List.length_drop, hvalue whole rfl, len_drop]) (hdrop ▸ hleaf) hbelow
    refine ⟨nodesInPages_cons.mpr ⟨hnode, hkept, hrest⟩, ?_⟩
    rw [hdrop] at hperm
    rw [treePages_cons, treePages_cons, List.append_assoc, List.append_assoc]
    refine List.Perm.append_left _ ?_
    refine (hperm.append_right _).trans ?_
    rw [List.append_assoc]
    exact List.perm_append_comm.append_left _
  | @split w key n node now below rest hmatch _ hlt hend =>
    obtain ⟨hnode, hbelow, hrest⟩ := nodesInPages_cons.mp hnodes
    have hdrop : (w.getD []).drop n = [] := by
      rcases hend with rfl | rfl
      · exact List.drop_nil
      · exact drop_whole_value hvalue
    refine ⟨nodesInPages_cons.mpr ⟨hnode.take n, nodesInPages_cons.mpr
      ⟨hnode.drop hP hmatch.aligned, hbelow, nodesInPages_nil P⟩, hrest⟩, ?_⟩
    simp only [treePages_cons, treePages_nil, splitNode, TreeNode.touch, hdrop, pagesIn_nil hP,
      List.append_nil]
    rw [pagesIn_split hP hmatch.aligned node.value, List.append_assoc, List.append_assoc]
  | @splitAdded key n node now value below rest hmatch _ hlt hlt' =>
    obtain ⟨hnode, hbelow, hrest⟩ := nodesInPages_cons.mp hnodes
    refine ⟨nodesInPages_cons.mpr ⟨hnode.take n, nodesInPages_cons.mpr
      ⟨hnode.drop hP hmatch.aligned, hbelow, nodesInPages_cons.mpr
        ⟨hleaf, nodesInPages_nil P, nodesInPages_nil P⟩⟩, hrest⟩, ?_⟩
    simp only [treePages_cons, treePages_nil, splitNode, TreeNode.touch, newLeaf, List.append_nil,
      Option.getD_some]
    rw [pagesIn_split hP hmatch.aligned node.value]
    simp only [List.append_assoc]
    refine List.Perm.append_left _ (List.Perm.append_left _ (List.Perm.append_left _ ?_))
    exact List.perm_append_comm

theorem treePages_mapPath (hit : TreeNode Tok → Bool) (delta : Int) :
    treePages P (f.mapPath hit (addLock delta)) = treePages P f := by
  rw [treePages, treePages, Forest.map_nodes_mapPath hit (addLock delta) (fun _ => rfl) f]

theorem nodesInPages_mapPath (hit : TreeNode Tok → Bool) (delta : Int) :
    NodesInPages P (f.mapPath hit (addLock delta)) ↔ NodesInPages P f := by
  have hmap := Forest.map_nodes_mapPath (w := fun n : TreeNode Tok => n.value) hit (addLock delta)
    (fun _ => rfl) f
  have hall : ∀ g : Children Tok, NodesInPages P g ↔ ∀ v ∈ g.nodes.map (·.value), InPages P v := by
    intro g
    simp [NodesInPages]
  rw [hall, hall, hmap]

/-- The slots on a path fill their pages. -/
theorem PathTo.inPages (hP : 0 < P) (hshape : Shaped P f) (hnodes : NodesInPages P f) {id : Nat}
    {extraKey : Option String} {t : List Tok} (h : PathTo f id extraKey t s) : InPages P s := by
  induction f generalizing t s with
  | nil => exact h.elim
  | cons childKey node below rest ihb ihr =>
    obtain ⟨hnode, _, hbelow, hrest, _⟩ := hshape.cons
    obtain ⟨hhere, hnodesBelow, hnodesRest⟩ := nodesInPages_cons.mp hnodes
    rcases h with ⟨_, ⟨_, _, rfl⟩ | ⟨t', s', _, rfl, hpath⟩⟩ | hpath
    · exact hhere
    · refine hhere.append hP ?_ (ihb hbelow hnodesBelow hpath)
      rw [hnode.valued]
      exact hnode.aligned
    · exact ihr hrest hnodesRest hpath

end Tree

/-! ## Giving pages back -/

section Release

variable {P : Nat} {a : PagedAllocator}

/-- The pool between two groups of frees. -/
structure PoolReady (P : Nat) (a : PagedAllocator) : Prop where
  pageSize : a.pageSize = P
  ungrouped : a.isNotInFreeGroup = true
  sorted : a.needSort = true ∨ a.releasePages = []

theorem PoolReady.release (h : PoolReady P a) (freeIndex : List Int) : PoolReady P (a.release freeIndex) := by
  obtain ⟨hpage, hgroup, hsort⟩ := h
  unfold PagedAllocator.release PagedAllocator.freeTokens PagedAllocator.free
  split
  · split
    · exact ⟨hpage, hgroup, hsort⟩
    · split
      next hneed => exact ⟨hpage, hgroup, .inl hneed⟩
      next hneed => exact ⟨hpage, hgroup, .inr (hsort.resolve_left hneed)⟩
  · split
    · exact ⟨hpage, hgroup, hsort⟩
    · dsimp only
      split
      next hneed => exact ⟨hpage, hgroup, .inl hneed⟩
      next hneed => exact ⟨hpage, hgroup, .inr (hsort.resolve_left hneed)⟩

/-- A call of `free` adds the pages its slots lie in. -/
theorem release_perm (h : PoolReady P a) {freeIndex pages : List Int} (hnodup : pages.Nodup)
    (hmem : ∀ g, (∃ x ∈ freeIndex, x / (P : Int) = g) ↔ g ∈ pages)
    (hone : P = 1 → freeIndex.Perm pages) : (a.release freeIndex).freeSet.Perm (pages ++ a.freeSet) := by
  obtain ⟨hpage, hgroup, _⟩ := h
  unfold PagedAllocator.release
  split
  next hsize =>
    have hperm := hone (hpage.symm.trans hsize)
    unfold PagedAllocator.freeTokens
    split
    next hnil =>
      rw [hnil] at hperm
      rw [List.nil_perm.mp hperm, List.nil_append]
    next =>
      refine List.Perm.trans ?_ (hperm.append_right _)
      split
      · rw [PagedAllocator.freeSet, PagedAllocator.freeSet, ← List.append_assoc]
        exact List.perm_append_comm
      · rw [PagedAllocator.freeSet, PagedAllocator.freeSet, ← List.append_assoc]
        exact List.perm_append_comm.append_right _
  next =>
    unfold PagedAllocator.free
    split
    next hnil =>
      have : pages = [] := by
        refine List.eq_nil_iff_forall_not_mem.mpr fun g hg => ?_
        obtain ⟨x, hx, _⟩ := (hmem g).mpr hg
        rw [hnil] at hx
        cases hx
      rw [this, List.nil_append]
    next =>
      have hunique : (torchUnique (freeIndex.map (· / (a.pageSize : Int)))).Perm pages := by
        refine (List.perm_ext_iff_of_nodup (torchUnique_nodup _) hnodup).mpr fun g => ?_
        rw [mem_torchUnique, ← hmem g, hpage, List.mem_map]
      refine List.Perm.trans ?_ (hunique.append_right _)
      dsimp only
      split
      · rw [PagedAllocator.freeSet, PagedAllocator.freeSet, ← List.append_assoc, ← List.append_assoc]
        exact List.perm_append_comm.append_right _
      · rw [PagedAllocator.freeSet, PagedAllocator.freeSet, ← List.append_assoc]

theorem pagesIn_one (slots : List Int) : pagesIn 1 slots = slots := by
  refine List.ext_getElem ?_ fun i hi hi' => ?_
  · rw [pagesIn, List.length_map, List.length_range, pagesOf_eq Nat.one_pos, Nat.mod_one, Nat.div_one]
    rfl
  · simp [pagesIn, hi']

/-- The pages that freeing the slots from `n` on gives back. -/
def pagesFrom (P : Nat) (slots : List Int) (n : Nat) : List Int :=
  if n < slots.length then pagesIn P (slots.drop (n / P * P)) else []

theorem release_drop (h : PoolReady P a) (hP : 0 < P) {slots : List Int} (n : Nat)
    (hpages : InPages P slots) (hnodup : (pagesFrom P slots n).Nodup) :
    (a.release (slots.drop n)).freeSet.Perm (pagesFrom P slots n ++ a.freeSet) := by
  unfold pagesFrom at hnodup ⊢
  split
  next hlt =>
    rw [if_pos hlt] at hnodup
    refine release_perm h hnodup (fun g => hpages.mem_pages_drop hP hlt g) fun hone => ?_
    rw [hone, Nat.div_one, Nat.mul_one, pagesIn_one]
  next hge =>
    rw [List.drop_of_length_le (Nat.not_lt.mp hge)]
    exact release_perm h List.nodup_nil (fun g => by simp) fun _ => List.Perm.refl _

theorem PoolReady.releaseAll (h : PoolReady P a) (freed : List (List Int)) :
    PoolReady P (a.releaseAll freed) := by
  induction freed generalizing a with
  | nil => exact h
  | cons slots freed ih => exact ih (h.release slots)

theorem release_value (h : PoolReady P a) (hP : 0 < P) {v : List Int} (hpages : InPages P v)
    (hnodup : (pagesIn P v).Nodup) : (a.release v).freeSet.Perm (pagesIn P v ++ a.freeSet) := by
  refine release_perm h hnodup (fun g => ?_) fun hone => by rw [hone, pagesIn_one]
  rcases Nat.eq_zero_or_pos v.length with hzero | hpos
  · rw [List.eq_nil_of_length_eq_zero hzero, pagesIn_nil hP]
    simp
  · have := hpages.mem_pages_drop hP hpos g
    rwa [Nat.zero_div, Nat.zero_mul, List.drop_zero] at this

/-- Values that fill their pages, freed one after the other. -/
theorem releaseAll_values (h : PoolReady P a) (hP : 0 < P) {values : List (List Int)}
    (hpages : ∀ v ∈ values, InPages P v) (hnodup : (values.flatMap (pagesIn P)).Nodup) :
    (a.releaseAll values).freeSet.Perm (values.flatMap (pagesIn P) ++ a.freeSet) := by
  induction values generalizing a with
  | nil => exact List.Perm.refl _
  | cons v values ih =>
    rw [List.flatMap_cons] at hnodup ⊢
    obtain ⟨hv, hrest, _⟩ := List.nodup_append'.mp hnodup
    have hfirst := release_value h hP (hpages v List.mem_cons_self) hv
    refine (ih (h.release v) (fun u hu => hpages u (List.mem_cons_of_mem _ hu)) hrest).trans ?_
    refine (hfirst.append_left _).trans ?_
    rw [← List.append_assoc]
    exact List.perm_append_comm.append_right _

end Release

/-! ## Taking pages -/

section Take

variable {P : Nat}

/-- The part of an allocation that brings the slots of a request to `seqLen`. -/
def growReq (r : InFlight) (seqLen : Nat) : ExtendReq := ⟨r.slots.length, seqLen, r.lastLoc⟩

theorem growReq_valid {r : InFlight} {seqLen : Nat} (hoffsets : OnOffsets P r.slots)
    (hlt : r.slots.length < seqLen) : (growReq r seqLen).Valid P where
  grows := hlt
  aligned := by
    show (r.slots.getLast?.getD (-1) + 1) % (P : Int) = (r.slots.length % P : Nat)
    rcases Nat.eq_zero_or_pos r.slots.length with hzero | hpos
    · rw [List.eq_nil_of_length_eq_zero hzero]
      simp
    · have hlast := hoffsets (r.slots.length - 1) (by omega)
      rw [List.getLast?_eq_getElem?, List.getElem?_eq_getElem (by omega), Option.getD_some, Int.add_emod,
        hlast, Int.natCast_mod, Int.natCast_mod, Int.emod_add_emod, Int.add_emod_emod]
      congr 1
      omega

/-- Slots behind a page boundary that grow by what an allocation returns go on filling pages. -/
theorem grow_inPages (hP : 0 < P) {r : InFlight} {seqLen m : Nat} {fresh : List Int} (hm : P ∣ m)
    (hle : m ≤ r.slots.length) (hlt : r.slots.length < seqLen) (hpages : InPages P (r.slots.drop m))
    (hfresh : fresh.length = (growReq r seqLen).newPages P) :
    InPages P ((r.slots ++ (growReq r seqLen).slots P fresh).drop m) ∧
      pagesIn P ((r.slots ++ (growReq r seqLen).slots P fresh).drop m) =
        pagesIn P (r.slots.drop m) ++ fresh := by
  obtain ⟨page, hpage⟩ := hpages
  obtain ⟨q, rfl⟩ := hm
  have hlen : (r.slots.drop (P * q)).length = r.slots.length - P * q := List.length_drop
  have hsplit : r.slots.length = P * q + (r.slots.drop (P * q)).length := by omega
  have hlast : 0 < (r.slots.drop (P * q)).length → r.lastLoc = (r.slots.drop (P * q)).getD
      ((r.slots.drop (P * q)).length - 1) 0 := by
    intro hpos
    rw [InFlight.lastLoc, List.getLast?_eq_getElem?, List.getElem?_eq_getElem (by omega),
      List.getD_eq_getElem _ _ (by omega), List.getElem_drop, Option.getD_some]
    congr 1
    omega
  have hcount : pagesOf P r.slots.length = q + pagesOf P (r.slots.drop (P * q)).length := by
    rw [hsplit, pagesOf_add hP (Nat.dvd_mul_right P q), Nat.mul_div_cancel_left _ hP]
  rw [List.drop_append_of_le_length hle]
  generalize hxs : r.slots.drop (P * q) = xs at hpage hlen hsplit hlast hcount ⊢
  have hceil := le_pagesOf_mul hP xs.length
  have hceilLt := pagesOf_mul_lt hP xs.length
  have hhead : (growReq r seqLen).headLen P =
      min (seqLen - P * q) (pagesOf P xs.length * P) - xs.length := by
    show min seqLen (pagesOf P r.slots.length * P) - r.slots.length = _
    rw [hcount, Nat.add_mul, Nat.mul_comm q P]
    omega
  have hext : (growReq r seqLen).extendLen = seqLen - P * q - xs.length := by
    show seqLen - r.slots.length = _
    omega
  have hnew : ((growReq r seqLen).slots P fresh).length = (growReq r seqLen).extendLen :=
    ExtendReq.length_slots P _ fresh
  have hfill : FillsPages P
      (fun j => if j < pagesOf P xs.length then page j else fresh.getD (j - pagesOf P xs.length) 0)
      (xs ++ (growReq r seqLen).slots P fresh) := by
    intro i hi
    rcases Nat.lt_or_ge i xs.length with hin | hout
    · have hdiv : i / P < pagesOf P xs.length :=
        (lt_pagesOf hP).mpr ((Nat.div_mul_le_self i P).trans_lt hin)
      rw [List.getElem_append_left hin, hpage i hin]
      simp only [if_pos hdiv]
    · obtain ⟨k, rfl⟩ := Nat.exists_eq_add_of_le hout
      rw [List.length_append, hnew] at hi
      rw [List.getElem_append_right hout]
      simp only [Nat.add_sub_cancel_left, ExtendReq.slots]
      rcases Nat.lt_or_ge k ((growReq r seqLen).headLen P) with hk | hk
      · -- still in the page of the last slot
        rw [List.getElem_append_left (by rw [List.length_map, List.length_range]; exact hk)]
        have hpos : 0 < xs.length := by
          by_contra hzero
          rw [show xs.length = 0 by omega, pagesOf_eq hP] at hhead
          simp at hhead
          omega
        have hin : xs.length + k < pagesOf P xs.length * P := by omega
        have hdivmod := Nat.div_add_mod (xs.length - 1) P
        have hsame : (xs.length - 1) / P + 1 = pagesOf P xs.length := by
          have h1 : (xs.length - 1) / P < pagesOf P xs.length :=
            (lt_pagesOf hP).mpr ((Nat.div_mul_le_self _ P).trans_lt (by omega))
          have hsome : 0 < pagesOf P xs.length := (lt_pagesOf hP).mpr (by omega)
          have hbefore : (pagesOf P xs.length - 1) * P < xs.length :=
            (lt_pagesOf hP).mp (Nat.sub_lt hsome Nat.one_pos)
          have h2 : pagesOf P xs.length - 1 ≤ (xs.length - 1) / P :=
            (Nat.le_div_iff_mul_le hP).mpr (by omega)
          omega
        have hroom : (xs.length - 1) % P + 1 + k < P := by
          have hmul : pagesOf P xs.length * P = P * ((xs.length - 1) / P) + P := by
            rw [← hsame, Nat.add_mul, Nat.one_mul, Nat.mul_comm]
          omega
        have hpos' : xs.length + k = P * ((xs.length - 1) / P) + ((xs.length - 1) % P + 1 + k) := by omega
        have hdiv : (xs.length + k) / P = (xs.length - 1) / P := by
          rw [hpos', Nat.mul_add_div hP, Nat.div_eq_of_lt hroom, Nat.add_zero]
        have hmod : (xs.length + k) % P = (xs.length - 1) % P + 1 + k := by
          conv_lhs => rw [hpos']
          rw [Nat.mul_add_mod, Nat.mod_eq_of_lt hroom]
        have hdivLt : (xs.length - 1) / P < pagesOf P xs.length := by omega
        rw [List.getElem_map, List.getElem_range, hdiv, hmod]
        show r.lastLoc + 1 + (k : Int) = _
        rw [hlast hpos, List.getD_eq_getElem _ _ (by omega), hpage _ (by omega)]
        simp only [if_pos hdivLt]
        push_cast
        ring
      · -- in the fresh pages
        rw [List.getElem_append_right (by rw [List.length_map, List.length_range]; exact hk)]
        simp only [List.length_map, List.length_range, List.getElem_map, List.getElem_range]
        have hfull : xs.length + (growReq r seqLen).headLen P = pagesOf P xs.length * P := by omega
        have hpos' : xs.length + k = P * pagesOf P xs.length + (k - (growReq r seqLen).headLen P) := by
          rw [Nat.mul_comm]
          omega
        have hge : ¬ pagesOf P xs.length + (k - (growReq r seqLen).headLen P) / P < pagesOf P xs.length :=
          Nat.not_lt.mpr (Nat.le_add_right _ _)
        rw [hpos', Nat.mul_add_div hP, Nat.mul_add_mod, if_neg hge, Nat.add_sub_cancel_left]
  refine ⟨⟨_, hfill⟩, ?_⟩
  have hnewPages : (growReq r seqLen).newPages P =
      pagesOf P (xs.length + (growReq r seqLen).extendLen) - pagesOf P xs.length := by
    show pagesOf P seqLen - pagesOf P r.slots.length = _
    have hseq : seqLen = P * q + (xs.length + (growReq r seqLen).extendLen) := by omega
    rw [hcount]
    conv_lhs => rw [hseq, pagesOf_add hP (Nat.dvd_mul_right P q), Nat.mul_div_cancel_left _ hP]
    omega
  have hmono := pagesOf_mono (P := P) xs.length (xs.length + (growReq r seqLen).extendLen)
    (Nat.le_add_right _ _)
  rw [hfill.pagesIn_eq hP, hpage.pagesIn_eq hP, List.length_append, hnew,
    show pagesOf P (xs.length + (growReq r seqLen).extendLen) = pagesOf P xs.length + fresh.length by omega,
    List.range_add, List.map_append, List.map_map]
  congr 1
  · refine List.map_congr_left fun j hj => ?_
    rw [if_pos (List.mem_range.mp hj)]
  · refine List.ext_getElem (by simp) fun j hj hj' => ?_
    have hge : ¬ pagesOf P xs.length + j < pagesOf P xs.length := by omega
    simp only [List.getElem_map, List.getElem_range, Function.comp_apply, if_neg hge,
      Nat.add_sub_cancel_left]
    exact List.getD_eq_getElem _ _ hj'

end Take

/-! ## Allocations -/

section Allocate

variable {P : Nat} {a : PagedAllocator}

theorem PoolReady.mergeIfShort (h : PoolReady P a) (needed : Nat) : PoolReady P (a.mergeIfShort needed) := by
  unfold PagedAllocator.mergeIfShort PagedAllocator.mergeAndSortFree
  split
  · split
    · exact ⟨h.pageSize, h.ungrouped, .inr rfl⟩
    · exact h
  · exact h

theorem PoolReady.alloc (h : PoolReady P a) (needSize : Nat) : PoolReady P (a.alloc needSize).2 := by
  have hmerged := h.mergeIfShort (needSize / a.pageSize)
  unfold PagedAllocator.alloc
  dsimp only
  split
  · exact hmerged
  · exact ⟨hmerged.pageSize, hmerged.ungrouped, hmerged.sorted⟩

theorem PoolReady.extendBatch (h : PoolReady P a) (mem : KernelMemory) (batch : List ExtendReq) :
    PoolReady P (extendBatch mem a batch).2 := by
  have hseen : ∀ seen, PoolReady P { a with seenMaxNumExtendTokensNextPowerOf2 := seen } := fun _ =>
    ⟨h.pageSize, h.ungrouped, h.sorted⟩
  unfold QCFuse.Guarantees.extendBatch PagedAllocator.allocExtend
  dsimp only
  split
  · exact (hseen _).mergeIfShort _
  · have hmerged := (hseen (max a.seenMaxNumExtendTokensNextPowerOf2
      (nextPowerOf2 (tokensOf batch)))).mergeIfShort
        (tokensOf batch / a.pageSize + (batch.map ExtendReq.prefixLen).length + 1)
    exact ⟨hmerged.pageSize, hmerged.ungrouped, hmerged.sorted⟩

theorem PoolReady.decodeBatch (h : PoolReady P a) (mem : KernelMemory) (batch : List ExtendReq) :
    PoolReady P (decodeBatch mem a batch).2 := by
  have hmerged := h.mergeIfShort (batch.map ExtendReq.seqLen).length
  unfold QCFuse.Guarantees.decodeBatch PagedAllocator.allocDecode
  dsimp only
  split
  · exact hmerged
  · exact ⟨hmerged.pageSize, hmerged.ungrouped, hmerged.sorted⟩

theorem pagesOf_one (n : Nat) : pagesOf 1 n = n := by
  rw [pagesOf_eq Nat.one_pos, Nat.mod_one, Nat.div_one]
  rfl

theorem newPages_one (r : ExtendReq) : r.newPages 1 = r.extendLen := by
  rw [ExtendReq.newPages, pagesOf_one, pagesOf_one, ExtendReq.extendLen]

theorem demand_one (batch : List ExtendReq) : demand 1 batch = tokensOf batch := by
  rw [demand, tokensOf]
  congr 1
  exact List.map_congr_left fun r _ => newPages_one r

theorem slots_one {r : ExtendReq} {fresh : List Int} (h : fresh.length = r.extendLen) :
    r.slots 1 fresh = fresh := by
  have hhead : r.headLen 1 = 0 := by
    rw [ExtendReq.headLen, pagesOf_one]
    omega
  rw [ExtendReq.slots, hhead, List.range_zero, List.map_nil, List.nil_append, Nat.sub_zero, ← h]
  refine List.ext_getElem (by simp) fun i hi hi' => ?_
  simp [hi', Nat.mod_one]

theorem batchSlots_one {freePages : List Int} {batch : List ExtendReq}
    (h : demand 1 batch ≤ freePages.length) : batchSlots 1 freePages batch = freePages.take (tokensOf batch) := by
  induction batch generalizing freePages with
  | nil => simp [batchSlots, carve, tokensOf]
  | cons r rest ih =>
    rw [demand_cons, newPages_one] at h
    rw [batchSlots_cons, tokensOf_cons, List.take_add, newPages_one,
      slots_one (List.length_take_of_le (by omega)), ih (by rw [List.length_drop]; omega)]

/-- With pages of one token, a plain allocation of all tokens serves the batch. -/
theorem alloc_exact (hpage : a.pageSize = 1) (hfree : a.freeSet.Nodup)
    (hsort : a.needSort = true ∨ a.releasePages = []) {batch : List ExtendReq}
    (hvalid : ∀ r ∈ batch, r.Valid a.pageSize) : AllocExact a batch (a.alloc (tokensOf batch)) := by
  have hdemand : demand a.pageSize batch = tokensOf batch := by rw [hpage, demand_one]
  have hdiv : tokensOf batch / a.pageSize = demand a.pageSize batch := by
    rw [hdemand, hpage, Nat.div_one]
  rw [PagedAllocator.alloc, hdiv]
  refine allocExact_of_slots hfree hvalid (freeSet_mergeIfShort _ _)
    (mergeIfShort_enough hsort le_rfl) fun henough => ?_
  rw [mergeIfShort_pageSize]
  rw [hpage] at henough ⊢
  rw [batchSlots_one henough, ← demand_one]
  conv_rhs => rw [← List.flatMap_singleton' ((a.mergeIfShort (demand 1 batch)).freePages.take _)]
  exact List.flatMap_congr fun page _ => by simp

end Allocate

/-! ## Slots for the requests of a batch -/

section Grant

variable {P : Nat} {want seqLen : InFlight → Nat} {write : InFlight → List Int → InFlight}
  {reqs reqs' : List InFlight} {fresh : List Int}

/-- Each request that wants slots gets those of its part, with fresh pages of its own. -/
inductive Granted (P : Nat) (want seqLen : InFlight → Nat) (write : InFlight → List Int → InFlight) :
    List InFlight → List Int → List InFlight → Prop where
  | nil : Granted P want seqLen write [] [] []
  | keep {r : InFlight} {reqs reqs' : List InFlight} {fresh : List Int} : want r = 0 →
      Granted P want seqLen write reqs fresh reqs' →
      Granted P want seqLen write (r :: reqs) fresh (r :: reqs')
  | give {r : InFlight} {reqs reqs' : List InFlight} {fresh : List Int} (pages : List Int) : want r ≠ 0 →
      pages.length = (growReq r (seqLen r)).newPages P →
      Granted P want seqLen write reqs fresh reqs' →
      Granted P want seqLen write (r :: reqs) (pages ++ fresh)
        (write r ((growReq r (seqLen r)).slots P pages) :: reqs')

/-- What `writeSlots` writes of the slots of a batch. -/
theorem granted_writeSlots (hwant : ∀ r ∈ reqs, want r ≠ 0 → (growReq r (seqLen r)).extendLen = want r)
    (parts : List (List Int)) (hparts : parts.map List.length =
      ((reqs.filter (0 < want ·)).map fun r => growReq r (seqLen r)).map (ExtendReq.newPages P)) :
    Granted P want seqLen write reqs parts.flatten (writeSlots want write
      (List.zipWith (ExtendReq.slots P)
        ((reqs.filter (0 < want ·)).map fun r => growReq r (seqLen r)) parts).flatten reqs) := by
  induction reqs generalizing parts with
  | nil =>
    cases parts with
    | nil => exact .nil
    | cons part parts => cases hparts
  | cons r reqs ih =>
    have hrest : ∀ q ∈ reqs, want q ≠ 0 → (growReq q (seqLen q)).extendLen = want q :=
      fun q hq => hwant q (List.mem_cons_of_mem _ hq)
    by_cases hzero : want r = 0
    · have hfilter : (r :: reqs).filter (0 < want ·) = reqs.filter (0 < want ·) :=
        List.filter_cons_of_neg (by simp [hzero])
      rw [hfilter] at hparts ⊢
      rw [writeSlots, if_pos hzero, hzero, List.drop_zero]
      exact .keep hzero (ih hrest parts hparts)
    · have hfilter : (r :: reqs).filter (0 < want ·) = r :: reqs.filter (0 < want ·) :=
        List.filter_cons_of_pos (by simpa using Nat.pos_of_ne_zero hzero)
      rw [hfilter] at hparts ⊢
      cases parts with
      | nil => cases hparts
      | cons part parts =>
        rw [List.map_cons, List.map_cons, List.map_cons] at hparts
        obtain ⟨hpart, hparts⟩ := List.cons_eq_cons.mp hparts
        have hlen : ((growReq r (seqLen r)).slots P part).length = want r := by
          rw [ExtendReq.length_slots, hwant r List.mem_cons_self hzero]
        rw [List.map_cons, List.zipWith_cons_cons, List.flatten_cons, List.flatten_cons, writeSlots,
          if_neg hzero, ← hlen, List.take_left, List.drop_left]
        exact .give part hzero hpart (ih hrest parts hparts)

theorem Granted.map {β : Type} {g : InFlight → β} (hg : ∀ r slots, g (write r slots) = g r)
    (h : Granted P want seqLen write reqs fresh reqs') : reqs'.map g = reqs.map g := by
  induction h with
  | nil => rfl
  | keep _ _ ih => rw [List.map_cons, List.map_cons, ih]
  | give _ _ _ _ ih => rw [List.map_cons, List.map_cons, ih, hg]

theorem Granted.origin (h : Granted P want seqLen write reqs fresh reqs') :
    ∀ r' ∈ reqs', r' ∈ reqs ∧ want r' = 0 ∨ ∃ r ∈ reqs, want r ≠ 0 ∧ ∃ pages : List Int,
      pages.length = (growReq r (seqLen r)).newPages P ∧
        r' = write r ((growReq r (seqLen r)).slots P pages) := by
  induction h with
  | nil => exact fun r' hr' => by cases hr'
  | keep hzero _ ih =>
    intro r' hr'
    rcases List.mem_cons.mp hr' with rfl | hr'
    · exact .inl ⟨List.mem_cons_self, hzero⟩
    · rcases ih r' hr' with ⟨hmem, hw⟩ | ⟨r, hr, hrest⟩
      · exact .inl ⟨List.mem_cons_of_mem _ hmem, hw⟩
      · exact .inr ⟨r, List.mem_cons_of_mem _ hr, hrest⟩
  | @give r reqs reqs' fresh pages hwant hlen _ ih =>
    intro r' hr'
    rcases List.mem_cons.mp hr' with rfl | hr'
    · exact .inr ⟨r, List.mem_cons_self, hwant, pages, hlen, rfl⟩
    · rcases ih r' hr' with ⟨hmem, hw⟩ | ⟨q, hq, hrest⟩
      · exact .inl ⟨List.mem_cons_of_mem _ hmem, hw⟩
      · exact .inr ⟨q, List.mem_cons_of_mem _ hq, hrest⟩

/-- The fresh pages are those the requests gain. -/
theorem Granted.pages {owned : InFlight → List Int} (h : Granted P want seqLen write reqs fresh reqs')
    (hgrow : ∀ r ∈ reqs, want r ≠ 0 → ∀ pages : List Int,
      pages.length = (growReq r (seqLen r)).newPages P →
        owned (write r ((growReq r (seqLen r)).slots P pages)) = owned r ++ pages) :
    (reqs'.flatMap owned).Perm (fresh ++ reqs.flatMap owned) := by
  induction h with
  | nil => exact List.Perm.refl _
  | @keep r reqs reqs' fresh hzero _ ih =>
    have hperm := ih fun q hq => hgrow q (List.mem_cons_of_mem _ hq)
    rw [List.flatMap_cons, List.flatMap_cons]
    refine (hperm.append_left _).trans ?_
    rw [← List.append_assoc, ← List.append_assoc]
    exact List.perm_append_comm.append_right _
  | @give r reqs reqs' fresh pages hwant hlen _ ih =>
    have hperm := ih fun q hq => hgrow q (List.mem_cons_of_mem _ hq)
    rw [List.flatMap_cons, List.flatMap_cons, hgrow r List.mem_cons_self hwant pages hlen]
    refine (hperm.append_left _).trans ?_
    simp only [List.append_assoc]
    calc owned r ++ (pages ++ (fresh ++ reqs.flatMap owned))
        _ = (owned r ++ (pages ++ fresh)) ++ reqs.flatMap owned := by simp only [List.append_assoc]
        _ |>.Perm ((pages ++ fresh) ++ owned r ++ reqs.flatMap owned) :=
          List.perm_append_comm.append_right _
        _ = pages ++ (fresh ++ (owned r ++ reqs.flatMap owned)) := by simp only [List.append_assoc]

end Grant

end QCFuse.Guarantees
