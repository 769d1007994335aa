import QCFuse.Guarantees.NgramRanks
import QCFuse.Library.Slices

/-!
# The drafted trees

What a request gets from `batchMatch`: tokens, and a mask of one tree below the request's last token
whose root paths go on in the trie after a suffix of the request.
-/

set_option autoImplicit false

namespace QCFuse.Guarantees

open QCFuse.Library QCFuse.Source

/-- The tokens on the way from the root to a place, without the root's. -/
inductive RootPath (token : List Int) (parent : Nat → Nat) : List Int → Nat → Prop
  | root : RootPath token parent [] 0
  | step {path : List Int} {i : Nat} {t : Int} : 0 < i → token[i]? = some t →
      RootPath token parent path (parent i) → RootPath token parent (path ++ [t]) i

/-- The place itself and those above it. -/
inductive Sees (parent : Nat → Nat) : Nat → Nat → Prop
  | self (i : Nat) : Sees parent i i
  | up {i j : Nat} : 0 < i → Sees parent (parent i) j → Sees parent i j

/-- A suffix length within the match window. -/
def InWindow (s : Ngram) (batchSize : Nat) (tokens : List Int) (size : Nat) : Prop :=
  s.param.getMinMatchWindowSize batchSize ≤ size ∧ size ≤ s.param.maxMatchWindowSize ∧ size ≤ tokens.length

/-- `path` leads to `node` from the end of the suffix of `size` tokens. -/
def Reaches (s : Ngram) (tokens : List Int) (size : Nat) (path : List Int) (node : Nat) : Prop :=
  descend s.nodes s.root (tokens.drop (tokens.length - size) ++ path) = some node

/-- `n` places in a tree, the first `drafted` of them not padding. -/
structure TokenTree (n : Nat) (r : NgramResult) (parent : Nat → Nat) (drafted : Nat) : Prop where
  drafted_pos : 0 < drafted
  drafted_le : drafted ≤ n
  parent_lt : ∀ i, 0 < i → i < n → parent i < i
  padding : ∀ i, drafted ≤ i → i < n → parent i = 0 ∧ r.token[i]? = some 0
  mask : ∀ i < n, ∀ j < n, ∃ bit, r.mask[i * n + j]? = some bit ∧ bit ≤ 1 ∧ (bit = 1 ↔ Sees parent i j)
  siblings : ∀ i j, 0 < i → i < drafted → 0 < j → j < drafted → parent i = parent j →
    r.token[i]? = r.token[j]? → i = j

/-- The result of one request. -/
structure DraftSound (s : Ngram) (batchSize n : Nat) (tokens : List Int) (r : NgramResult) : Prop where
  token_length : r.token.length = n
  mask_length : r.mask.length = n * n
  first : r.token[0]? = tokens.getLast?
  tree : ∃ parent drafted, TokenTree n r parent drafted ∧ ∀ i, 0 < i → i < drafted →
    ∃ path, RootPath r.token parent path i ∧
      ∃ size node, InWindow s batchSize tokens size ∧ Reaches s tokens size path node

/-- The answer to a batch: the results of the requests, one after the other, all of one length of at most
`draft_token_num`. -/
def DraftsSound {D : Type} (platform : Platform D) (s : Ngram) (batch : List (List Int)) : Prop :=
  ∃ results n, Ngram.batchMatch platform s batch =
      .ok ⟨results.flatMap NgramResult.token, results.flatMap NgramResult.mask⟩ ∧
    n ≤ s.param.draftTokenNum ∧ List.Forall₂ (DraftSound s batch.length n) batch results

/-! ## Rows of the mask -/

section Mask

variable {parent : Nat → Nat} {n : Nat}

theorem Sees.le (hparent : ∀ i, 0 < i → i < n → parent i < i) {i j : Nat} (hi : i < n) (h : Sees parent i j) :
    j ≤ i := by
  induction h with
  | self i => exact Nat.le_refl i
  | up hpos _ ih =>
    have := hparent _ hpos hi
    have := ih (by omega)
    omega

theorem sees_iff {i j : Nat} : Sees parent i j ↔ j = i ∨ 0 < i ∧ Sees parent (parent i) j := by
  constructor
  · intro h
    cases h with
    | self => exact .inl rfl
    | up hpos h => exact .inr ⟨hpos, h⟩
  · rintro (rfl | ⟨hpos, h⟩)
    · exact .self j
    · exact .up hpos h

/-- What a mask row holds. -/
def RowOk (parent : Nat → Nat) (n i : Nat) (row : List Nat) : Prop :=
  row.length = n ∧ ∀ j < n, ∃ bit, row[j]? = some bit ∧ bit ≤ 1 ∧ (bit = 1 ↔ Sees parent i j)

/-- A parent's place as `prevs` stores it. -/
def prevOf (parent : Nat → Nat) (i : Nat) : Int := if i = 0 then -1 else (parent i : Int)

/-- The parent's row up to the parent, and the place itself. -/
theorem rowOk_next (hparent : ∀ i, 0 < i → i < n → parent i < i) {i : Nat} (hi : i < n) {above : List Nat}
    (habove : 0 < i → RowOk parent n (parent i) above) :
    RowOk parent n i (((above.take (if prevOf parent i = -1 then 0 else (prevOf parent i).toNat + 1)) ++
      List.replicate (n - if prevOf parent i = -1 then 0 else (prevOf parent i).toNat + 1) 0).set i 1) := by
  by_cases hzero : i = 0
  · subst hzero
    have hcopied : (if prevOf parent 0 = -1 then 0 else (prevOf parent 0).toNat + 1) = 0 := if_pos rfl
    rw [hcopied, List.take_zero, List.nil_append, Nat.sub_zero]
    refine ⟨by simp, fun j hj => ?_⟩
    rw [sees_iff]
    by_cases hj0 : j = 0
    · subst hj0
      exact ⟨1, by simp [hi], Nat.le_refl 1, by simp⟩
    · refine ⟨0, ?_, Nat.zero_le 1, by simp [hj0]⟩
      rw [List.getElem?_set_ne (Ne.symm hj0), List.getElem?_replicate, if_pos hj]
  · have hpos : 0 < i := Nat.pos_of_ne_zero hzero
    have hlt := hparent i hpos hi
    obtain ⟨hlen, hbits⟩ := habove hpos
    have hcopied : (if prevOf parent i = -1 then 0 else (prevOf parent i).toNat + 1) = parent i + 1 := by
      rw [prevOf, if_neg hzero, if_neg (by omega), Int.toNat_natCast]
    rw [hcopied]
    have htake : (above.take (parent i + 1)).length = parent i + 1 := by
      rw [List.length_take, hlen]
      omega
    refine ⟨by rw [List.length_set, List.length_append, htake, List.length_replicate]; omega, fun j hj => ?_⟩
    rw [sees_iff]
    by_cases hji : j = i
    · subst hji
      refine ⟨1, ?_, Nat.le_refl 1, by simp⟩
      rw [List.getElem?_set_self (by rw [List.length_append, htake, List.length_replicate]; omega)]
    · rw [List.getElem?_set_ne (Ne.symm hji)]
      by_cases hle : j ≤ parent i
      · obtain ⟨bit, hbit, hone, hiff⟩ := hbits j hj
        refine ⟨bit, ?_, hone, by simp [hiff, hji, hpos]⟩
        rw [List.getElem?_append_left (by omega), List.getElem?_take_of_lt (by omega), hbit]
      · have hno : ¬ Sees parent (parent i) j := fun h => hle (h.le hparent (by omega))
        refine ⟨0, ?_, Nat.zero_le 1, by simp [hji, hno]⟩
        rw [List.getElem?_append_right (by omega), htake, List.getElem?_replicate, if_pos (by omega)]

/-- Every row of the mask marks its place and the places above. -/
theorem maskRows_ok (hparent : ∀ i, 0 < i → i < n → parent i < i) {m : Nat} (hm : m ≤ n) :
    (maskRows n ((List.range m).map (prevOf parent))).length = m ∧
      ∀ i < m, ∃ row, (maskRows n ((List.range m).map (prevOf parent)))[i]? = some row ∧ RowOk parent n i row := by
  induction m with
  | zero => exact ⟨rfl, fun i hi => absurd hi (Nat.not_lt_zero i)⟩
  | succ m ih =>
    obtain ⟨hlen, hrows⟩ := ih (by omega)
    have hstep : maskRows n ((List.range (m + 1)).map (prevOf parent)) =
        maskRows n ((List.range m).map (prevOf parent)) ++
          [((((maskRows n ((List.range m).map (prevOf parent))).getD (prevOf parent m).toNat []).take
              (if prevOf parent m = -1 then 0 else (prevOf parent m).toNat + 1)) ++
            List.replicate (n - if prevOf parent m = -1 then 0 else (prevOf parent m).toNat + 1) 0).set m 1] := by
      rw [List.range_succ, List.map_append, List.map_singleton]
      conv_lhs => rw [maskRows, List.foldl_append, List.foldl_cons, List.foldl_nil, ← maskRows]
      rw [hlen]
    rw [hstep]
    refine ⟨by rw [List.length_append, hlen, List.length_singleton], fun i hi => ?_⟩
    by_cases him : i < m
    · rw [List.getElem?_append_left (by omega)]
      exact hrows i him
    · obtain rfl : i = m := by omega
      rw [List.getElem?_append_right (by omega), hlen, Nat.sub_self]
      refine ⟨_, rfl, rowOk_next hparent (by omega) fun hpos => ?_⟩
      have hlt := hparent i hpos (by omega)
      obtain ⟨row, hrow, hok⟩ := hrows (parent i) hlt
      rw [prevOf, if_neg (Nat.pos_iff_ne_zero.mp hpos), Int.toNat_natCast, List.getD_eq_getElem?_getD, hrow]
      exact hok

end Mask

/-- The tokens that lead to a position of the drafted tree. -/
inductive TreePath (tree : DraftTree) : List Int → Nat → Prop
  | root : TreePath tree [] 0
  | step {path : List Int} {p q : Nat} {t : Int} : TreePath tree path p → (t, q) ∈ tree.next p →
      TreePath tree (path ++ [t]) q

/-! ## Flattening -/

section Flatten

variable {D : Type} (platform : Platform D) {tree : DraftTree} {lastToken : Int}

/-- Places so far, the tree position of each, and what is queued below them. -/
structure Flattened (tree : DraftTree) (lastToken : Int) (places : List (Int × Int)) (nodes : List Nat)
    (queue : List (Int × Nat × Nat)) : Prop where
  length_eq : nodes.length = places.length
  root : places[0]? = some (lastToken, -1) ∧ nodes[0]? = some 0
  placed : ∀ (i : Nat) (t prev : Int), 0 < i → places[i]? = some (t, prev) → ∃ p a b : Nat, prev = (p : Int) ∧
    p < i ∧ nodes[p]? = some a ∧ nodes[i]? = some b ∧ (t, b) ∈ tree.next a
  queued : ∀ e ∈ queue, ∃ a, nodes[e.2.2]? = some a ∧ (e.1, e.2.1) ∈ tree.next a
  search : Search (DraftTree.Below tree) id (List.range tree.cursor) 0 nodes.reverse (queue.map fun e => e.2.1)

theorem mem_fillEntries {node prev : Nat} {e : Int × Nat × Nat} (he : e ∈ fillEntries platform tree node prev) :
    e.2.2 = prev ∧ (e.1, e.2.1) ∈ tree.next node := by
  obtain ⟨entry, hentry, rfl⟩ := List.mem_map.mp he
  exact ⟨rfl, (platform.mapOrder_perm _).mem_iff.mp hentry⟩

theorem filled_start (h : DraftTree.Ok tree) :
    Flattened tree lastToken [(lastToken, -1)] [0] (fillEntries platform tree 0 0) := by
  refine ⟨rfl, ⟨rfl, rfl⟩, fun i t prev hi hget => ?_, fun e he => ?_, ?_⟩
  · rw [List.getElem?_eq_none (by rw [List.length_singleton]; omega)] at hget
    cases hget
  · obtain ⟨hprev, hmem⟩ := mem_fillEntries platform he
    exact ⟨0, by rw [hprev]; rfl, hmem⟩
  · exact fill_visit platform 0 h (Search.single (DraftTree.Below tree) id (List.mem_range.mpr h.cursor))
      (List.Perm.refl _) (by rw [List.nil_append])

theorem Flattened.next (h : DraftTree.Ok tree) {places : List (Int × Int)} {nodes : List Nat} {token : Int}
    {node prev : Nat} {queue : List (Int × Nat × Nat)}
    (hf : Flattened tree lastToken places nodes ((token, node, prev) :: queue)) :
    Flattened tree lastToken (places ++ [(token, (prev : Int))]) (nodes ++ [node])
      (queue ++ fillEntries platform tree node places.length) := by
  have hpos : 0 < places.length := (List.getElem?_eq_some_iff.mp hf.root.1).1
  have hlen := hf.length_eq
  obtain ⟨a, ha, hmem⟩ := hf.queued _ List.mem_cons_self
  have hprev : prev < nodes.length := (List.getElem?_eq_some_iff.mp ha).1
  have hlast : (nodes ++ [node])[places.length]? = some node := by
    rw [← hlen, List.getElem?_concat_length]
  have hkeep : ∀ {i b}, nodes[i]? = some b → (nodes ++ [node])[i]? = some b := fun hb => by
    rw [List.getElem?_append_left (List.getElem?_eq_some_iff.mp hb).1, hb]
  refine ⟨by simp [hlen], ⟨?_, hkeep hf.root.2⟩, fun i t prev' hi hget => ?_, fun e he => ?_, ?_⟩
  · rw [List.getElem?_append_left hpos, hf.root.1]
  · by_cases hold : i < places.length
    · rw [List.getElem?_append_left hold] at hget
      obtain ⟨p, a', b, rfl, hp, ha', hb, hin⟩ := hf.placed i t prev' hi hget
      exact ⟨p, a', b, rfl, hp, hkeep ha', hkeep hb, hin⟩
    · have hi' : i < places.length + 1 := by simpa using (List.getElem?_eq_some_iff.mp hget).1
      obtain rfl : i = places.length := by omega
      rw [List.getElem?_concat_length, Option.some.injEq, Prod.mk.injEq] at hget
      obtain ⟨rfl, rfl⟩ := hget
      exact ⟨prev, a, node, rfl, by omega, hkeep ha, hlast, hmem⟩
  · rcases List.mem_append.mp he with hold | hnew
    · obtain ⟨a', ha', hin⟩ := hf.queued e (List.mem_cons_of_mem _ hold)
      exact ⟨a', hkeep ha', hin⟩
    · obtain ⟨heq, hin⟩ := mem_fillEntries platform hnew
      exact ⟨node, by rw [heq, hlast], hin⟩
  · rw [List.reverse_concat]
    exact fill_visit platform places.length h hf.search (List.Perm.refl _) (by rw [List.map_append])

theorem fillLoop_filled (h : DraftTree.Ok tree) (fuel : Nat) {places out : List (Int × Int)} {nodes : List Nat}
    {queue : List (Int × Nat × Nat)} (hf : Flattened tree lastToken places nodes queue)
    (hrun : fillLoop platform tree fuel queue places = .ok out) : ∃ nodes', Flattened tree lastToken out nodes' [] := by
  induction fuel generalizing places nodes queue with
  | zero =>
    cases queue with
    | nil =>
      rw [fillLoop, Except.ok.injEq] at hrun
      exact ⟨nodes, hrun ▸ hf⟩
    | cons e queue =>
      rw [fillLoop] at hrun
      cases hrun
  | succ fuel ih =>
    cases queue with
    | nil =>
      rw [fillLoop, Except.ok.injEq] at hrun
      exact ⟨nodes, hrun ▸ hf⟩
    | cons e queue =>
      rw [fillLoop] at hrun
      exact ih (hf.next platform h) hrun

/-- Places are told apart by their tree positions. -/
theorem Flattened.nodup {places : List (Int × Int)} {nodes : List Nat} {queue : List (Int × Nat × Nat)}
    (hf : Flattened tree lastToken places nodes queue) : nodes.Nodup :=
  List.nodup_reverse.mp (List.nodup_append.mp hf.search.nodup).1

theorem Flattened.length_le {places : List (Int × Int)} {nodes : List Nat} {queue : List (Int × Nat × Nat)}
    (hf : Flattened tree lastToken places nodes queue) : places.length ≤ tree.cursor := by
  have hsub : nodes ⊆ List.range tree.cursor := fun a ha =>
    hf.search.inside (List.mem_append_left _ (List.mem_reverse.mpr ha))
  have := (hf.nodup.subperm hsub).length_le
  rw [List.length_range, hf.length_eq] at this
  exact this

/-- The places and their padding. -/
def padded (n : Nat) (places : List (Int × Int)) : List (Int × Int) :=
  places ++ List.replicate (n - places.length) (0, 0)

/-- The parents' places. -/
def parentIn (places : List (Int × Int)) (i : Nat) : Nat := (places.getD i (0, 0)).2.toNat

variable {places : List (Int × Int)} {nodes : List Nat} {n : Nat}

theorem padded_drafted {i : Nat} (hi : i < places.length) : (padded n places)[i]? = places[i]? :=
  List.getElem?_append_left hi

theorem padded_padding {i : Nat} (hle : places.length ≤ i) (hi : i < n) : (padded n places)[i]? = some (0, 0) := by
  rw [padded, List.getElem?_append_right hle, List.getElem?_replicate, if_pos (by omega)]

theorem length_padded (hlen : places.length ≤ n) : (padded n places).length = n := by
  rw [padded, List.length_append, List.length_replicate]
  omega

theorem parentIn_eq {i : Nat} {entry : Int × Int} (h : places[i]? = some entry) : parentIn places i = entry.2.toNat := by
  rw [parentIn, List.getD_eq_getElem?_getD, h, Option.getD_some]

/-- What a drafted place is. -/
theorem Flattened.place (hf : Flattened tree lastToken places nodes []) {i : Nat} (hpos : 0 < i)
    (hi : i < places.length) : ∃ t a b, places[i]? = some (t, (parentIn (padded n places) i : Int)) ∧
      parentIn (padded n places) i < i ∧ nodes[parentIn (padded n places) i]? = some a ∧ nodes[i]? = some b ∧
      (t, b) ∈ tree.next a := by
  obtain ⟨⟨t, prev⟩, hget⟩ : ∃ entry, places[i]? = some entry := ⟨_, List.getElem?_eq_getElem hi⟩
  obtain ⟨p, a, b, rfl, hp, ha, hb, hmem⟩ := hf.placed i t prev hpos hget
  rw [parentIn_eq ((padded_drafted hi).trans hget), Int.toNat_natCast]
  exact ⟨t, a, b, hget, hp, ha, hb, hmem⟩

theorem Flattened.parents (hf : Flattened tree lastToken places nodes []) {i : Nat} (hpos : 0 < i) (hi : i < n) :
    parentIn (padded n places) i < i := by
  by_cases hdrafted : i < places.length
  · obtain ⟨t, a, b, -, hp, -⟩ := hf.place (n := n) hpos hdrafted
    exact hp
  · rw [parentIn_eq (padded_padding (by omega) hi)]
    exact hpos

theorem Flattened.prevs (hf : Flattened tree lastToken places nodes []) (hlen : places.length ≤ n) :
    (padded n places).map Prod.snd = (List.range n).map (prevOf (parentIn (padded n places))) := by
  refine List.ext_getElem? fun i => ?_
  by_cases hi : i < n
  · rw [List.getElem?_map, List.getElem?_map, List.getElem?_range hi, Option.map_some, prevOf]
    by_cases hzero : i = 0
    · subst hzero
      rw [padded_drafted (List.getElem?_eq_some_iff.mp hf.root.1).1, hf.root.1]
      rfl
    · rw [if_neg hzero]
      by_cases hdrafted : i < places.length
      · obtain ⟨t, a, b, hget, -⟩ := hf.place (n := n) (Nat.pos_of_ne_zero hzero) hdrafted
        rw [padded_drafted hdrafted, hget]
        rfl
      · rw [parentIn_eq (padded_padding (by omega) hi), padded_padding (by omega) hi]
        rfl
  · rw [List.getElem?_eq_none (by rw [List.length_map, length_padded hlen]; omega),
      List.getElem?_eq_none (by rw [List.length_map, List.length_range]; omega)]

/-- Root paths of the flattened tree are paths of the drafted tree. -/
theorem Flattened.rootPath (hf : Flattened tree lastToken places nodes []) {i : Nat} (hi : i < places.length) :
    ∃ path b, RootPath ((padded n places).map Prod.fst) (parentIn (padded n places)) path i ∧
      TreePath tree path b ∧ nodes[i]? = some b ∧ (0 < i → path ≠ []) := by
  induction i using Nat.strong_induction_on with
  | _ i ih =>
    by_cases hzero : i = 0
    · subst hzero
      exact ⟨[], 0, .root, .root, hf.root.2, fun h => absurd h (Nat.lt_irrefl 0)⟩
    · have hpos := Nat.pos_of_ne_zero hzero
      obtain ⟨t, a, b, hget, hp, ha, hb, hmem⟩ := hf.place (n := n) hpos hi
      obtain ⟨path, a', hroot, htree, ha', -⟩ := ih _ hp (by omega)
      obtain rfl : a = a' := Option.some.inj (ha.symm.trans ha')
      refine ⟨path ++ [t], b, .step hpos ?_ hroot, .step htree hmem, hb, fun _ => by simp⟩
      rw [List.getElem?_map, padded_drafted hi, hget]
      rfl

/-- What `fillResult` makes of a drafted tree. -/
theorem fillResult_tree (h : DraftTree.Ok tree) (htokens : ∀ p, ((tree.next p).map Prod.fst).Nodup)
    (hcursor : tree.cursor ≤ n) {r : NgramResult} (hrun : fillResult platform tree lastToken n = .ok r) :
    r.token.length = n ∧ r.mask.length = n * n ∧ r.token[0]? = some lastToken ∧
      ∃ parent drafted, TokenTree n r parent drafted ∧ ∀ i, 0 < i → i < drafted →
        ∃ path b, RootPath r.token parent path i ∧ TreePath tree path b ∧ path ≠ [] := by
  obtain ⟨places, hloop, hrun⟩ := bind_ok hrun
  obtain ⟨nodes, hf⟩ := fillLoop_filled platform h n (filled_start platform h) hloop
  have hlen : places.length ≤ n := Nat.le_trans hf.length_le hcursor
  have hr : r = ⟨(padded n places).map Prod.fst,
      (maskRows (padded n places).length ((padded n places).map Prod.snd)).flatten⟩ := (Except.ok.inj hrun).symm
  rw [length_padded hlen, hf.prevs hlen] at hr
  subst hr
  have hparents := fun i hpos hi => hf.parents (n := n) (i := i) hpos hi
  obtain ⟨hrows, hrow⟩ := maskRows_ok hparents (Nat.le_refl n)
  have hwidth : ∀ row ∈ maskRows n ((List.range n).map (prevOf (parentIn (padded n places)))), row.length = n := by
    intro row hmem
    obtain ⟨i, hi, rfl⟩ := List.mem_iff_getElem.mp hmem
    obtain ⟨row, hget, hok⟩ := hrow i (hrows ▸ hi)
    rw [List.getElem?_eq_getElem hi, Option.some.injEq] at hget
    exact hget ▸ hok.1
  have hfirst : 0 < places.length := (List.getElem?_eq_some_iff.mp hf.root.1).1
  refine ⟨by rw [List.length_map, length_padded hlen], ?_, ?_, parentIn (padded n places), places.length,
    ⟨hfirst, hlen, hparents, ?_, ?_, ?_⟩, ?_⟩
  · rw [← List.flatMap_id', length_flatMap_block hwidth, hrows]
  · rw [List.getElem?_map, padded_drafted hfirst, hf.root.1]
    rfl
  · intro i hle hi
    rw [parentIn_eq (padded_padding hle hi), List.getElem?_map, padded_padding hle hi]
    exact ⟨rfl, rfl⟩
  · intro i hi j hj
    obtain ⟨row, hget, -, hbits⟩ := hrow i hi
    obtain ⟨bit, hbit, hone, hiff⟩ := hbits j hj
    refine ⟨bit, ?_, hone, hiff⟩
    rw [← List.flatMap_id', getElem?_flatMap_block hwidth i hj, hget]
    exact hbit
  · intro i j hi hidrafted hj hjdrafted hsame htoken
    obtain ⟨t, a, b, hget, -, ha, hb, hmem⟩ := hf.place (n := n) hi hidrafted
    obtain ⟨t', a', b', hget', -, ha', hb', hmem'⟩ := hf.place (n := n) hj hjdrafted
    rw [← hsame, ha, Option.some.injEq] at ha'
    subst ha'
    simp only [List.getElem?_map, padded_drafted hidrafted, padded_drafted hjdrafted, hget, hget',
      Option.map_some, Option.some.injEq] at htoken
    subst htoken
    have hbb : (t, b) = (t, b') := List.inj_on_of_nodup_map (htokens a) hmem hmem' rfl
    rw [← (Prod.mk.inj hbb).2] at hb'
    exact (List.getElem?_inj (List.getElem?_eq_some_iff.mp hb).1 hf.nodup).mp (hb.trans hb'.symm)
  · intro i hi hdrafted
    obtain ⟨path, b, hroot, htree, -, hne⟩ := hf.rootPath (n := n) hdrafted
    exact ⟨path, b, hroot, htree, hne hi⟩

end Flatten

/-! ## Drafting -/

section Drafting

variable {tree : DraftTree} {s : Ngram} {batchSize : Nat} {tokens : List Int}

theorem treePath_cases {path : List Int} {q : Nat} (hpath : TreePath tree path q) :
    path = [] ∧ q = 0 ∨ ∃ above p t, path = above ++ [t] ∧ TreePath tree above p ∧ (t, q) ∈ tree.next p := by
  cases hpath with
  | root => exact .inl ⟨rfl, rfl⟩
  | @step above p _ t habove hmem => exact .inr ⟨above, p, t, rfl, habove, hmem⟩

theorem DraftTree.Ok.path_root (h : DraftTree.Ok tree) {path : List Int} (hpath : TreePath tree path 0) :
    path = [] := by
  cases hpath with
  | root => rfl
  | step _ hmem => exact absurd (h.later _ _ hmem).1 (Nat.not_lt_zero _)

theorem DraftTree.Ok.path_lt (h : DraftTree.Ok tree) {path : List Int} {p : Nat} (hpath : TreePath tree path p) :
    p < tree.cursor := by
  cases hpath with
  | root => exact h.cursor
  | step _ hmem => exact (h.later _ _ hmem).2

/-- Only the new position is reached along the new entry. -/
theorem treePath_place {parent : Nat} {token : Int} (h : DraftTree.Ok tree)
    (hnew : (tree.place parent token).1 = tree.cursor)
    (hnext : ∀ p, (tree.place parent token).2.next p = tree.next p ∨
      p = parent ∧ (tree.place parent token).2.next p = tree.next p ++ [(token, tree.cursor)])
    (hparent : parent < tree.cursor) {path : List Int} {q : Nat}
    (hpath : TreePath (tree.place parent token).2 path q) :
    TreePath tree path q ∨ q = tree.cursor ∧ ∃ above, path = above ++ [token] ∧ TreePath tree above parent := by
  have hok := (h.place token hparent).1
  induction hpath with
  | root => exact .inl .root
  | @step above p q t habove hmem ih =>
    -- nothing is below the new position yet
    have hp : TreePath tree above p := by
      refine ih.resolve_right ?_
      rintro ⟨rfl, -⟩
      have hlt := hok.later _ _ hmem
      rcases hnext tree.cursor with heq | ⟨heq, -⟩
      · rw [heq] at hmem
        have := h.later _ _ hmem
        omega
      · omega
    rcases hnext p with heq | ⟨rfl, heq⟩
    · exact .inl (.step hp (heq ▸ hmem))
    · rw [heq, List.mem_append, List.mem_singleton] at hmem
      rcases hmem with hold | hentry
      · exact .inl (.step hp hold)
      · obtain ⟨rfl, rfl⟩ := Prod.mk.inj hentry
        exact .inr ⟨rfl, above, rfl, hp⟩

/-- A node of the trie stands at a position: the position's tokens lead to it. -/
structure Stands (s : Ngram) (batchSize : Nat) (tokens : List Int) (tree : DraftTree) (p node : Nat) : Prop where
  position : p < tree.cursor
  listed : node ∈ s.root :: s.globalLru
  reaches : ∃ size, InWindow s batchSize tokens size ∧
    ∀ path, TreePath tree path p → Reaches s tokens size path node

/-- The drafted tree, and nodes of the trie that stand in it. -/
structure Drafts (s : Ngram) (batchSize : Nat) (tokens : List Int) (tree : DraftTree) (entries : List (Nat × Nat)) :
    Prop where
  ok : DraftTree.Ok tree
  keys : ∀ p, ((tree.next p).map Prod.fst).Nodup
  continues : ∀ path q, TreePath tree path q → path ≠ [] →
    ∃ size node, InWindow s batchSize tokens size ∧ Reaches s tokens size path node
  stands : ∀ e ∈ entries, Stands s batchSize tokens tree e.1 e.2

theorem Drafts.subset {entries entries' : List (Nat × Nat)} (h : Drafts s batchSize tokens tree entries)
    (hsub : entries' ⊆ entries) : Drafts s batchSize tokens tree entries' :=
  ⟨h.ok, h.keys, h.continues, fun e he => h.stands e (hsub he)⟩

theorem Reaches.child {path : List Int} {size node child : Nat} {token : Int} (h : Reaches s tokens size path node)
    (hfind : (s.nodes node).find token = some child) : Reaches s tokens size (path ++ [token]) child := by
  have happend : ∀ (front : List Int) (p : Nat), descend s.nodes p front = some node →
      descend s.nodes p (front ++ [token]) = some child := by
    intro front
    induction front with
    | nil =>
      intro p hp
      obtain rfl := Option.some.inj hp
      rw [List.nil_append, descend, hfind]
      rfl
    | cons t front ih =>
      intro p hp
      obtain ⟨next, hnext, hrest⟩ := Option.bind_eq_some_iff.mp hp
      rw [List.cons_append, descend, hnext]
      exact ih next hrest
  unfold Reaches at h ⊢
  rw [← List.append_assoc]
  exact happend _ _ h

/-- A child of a node that stands below `parent` is placed. -/
theorem Drafts.place (h : Linked s) {parent node child : Nat} {token : Int} {entries : List (Nat × Nat)}
    (hd : Drafts s batchSize tokens tree ((parent, node) :: entries))
    (hfind : (s.nodes node).find token = some child) :
    Drafts s batchSize tokens (tree.place parent token).2
      (((tree.place parent token).1, child) :: (parent, node) :: entries) := by
  obtain ⟨hparent, hnode, size, hwindow, hreaches⟩ := hd.stands _ List.mem_cons_self
  obtain ⟨hok, hpos, hle, -⟩ := hd.ok.place token hparent
  have hchild : child ∈ s.root :: s.globalLru :=
    List.mem_cons_of_mem _ ((h.node_ok node hnode).child_mem _ (TrieNode.mem_of_find hfind)).1
  rcases DraftTree.place_cases tree parent token with ⟨e, he, rfl, heq⟩ | ⟨hnone, hnew, hcursor, hnext⟩
  · -- the entry was there: every path to it comes along the parent
    rw [heq]
    refine ⟨hd.ok, hd.keys, hd.continues, fun entry hentry => ?_⟩
    rcases List.mem_cons.mp hentry with rfl | hold
    · refine ⟨(hd.ok.later _ _ he).2, hchild, size, hwindow, fun path hpath => ?_⟩
      rcases treePath_cases hpath with ⟨-, hzero⟩ | ⟨above, p, t, rfl, habove, hmem⟩
      · exact absurd hzero (Nat.ne_of_gt (Nat.zero_lt_of_lt (hd.ok.later _ _ he).1))
      · obtain rfl : p = parent := hd.ok.unique _ _ _ _ hmem he rfl
        have hsame : (t, e.2) = e := List.inj_on_of_nodup_map (hd.ok.distinct p) hmem he rfl
        rw [show t = e.1 from congrArg Prod.fst hsame]
        exact (hreaches above habove).child hfind
    · exact hd.stands entry hold
  · have hpaths := fun path q hpath => @treePath_place tree parent token hd.ok hnew hnext hparent path q hpath
    have hstand : ∀ path, TreePath (tree.place parent token).2 path tree.cursor →
        Reaches s tokens size path child := by
      intro path hpath
      rcases hpaths path _ hpath with hold | ⟨-, above, rfl, habove⟩
      · exact absurd (hd.ok.path_lt hold) (Nat.lt_irrefl _)
      · exact (hreaches above habove).child hfind
    refine ⟨hok, fun p => ?_, fun path q hpath hne => ?_, fun entry hentry => ?_⟩
    · rcases hnext p with heq | ⟨rfl, heq⟩
      · rw [heq]
        exact hd.keys p
      · rw [heq, List.map_append, List.map_singleton]
        refine (hd.keys p).append (List.nodup_singleton _) (List.disjoint_singleton.mpr fun hmem => ?_)
        obtain ⟨e, he, hkey⟩ := List.mem_map.mp hmem
        exact hnone e he hkey
    · rcases hpaths path q hpath with hold | ⟨rfl, above, rfl, habove⟩
      · exact hd.continues path q hold hne
      · exact ⟨size, child, hwindow, hstand _ hpath⟩
    · rcases List.mem_cons.mp hentry with rfl | hold
      · exact ⟨hpos, hchild, size, hwindow, fun path hpath => hstand path (by rwa [hnew] at hpath)⟩
      · obtain ⟨hp, hlisted, size', hwindow', hreaches'⟩ := hd.stands entry hold
        refine ⟨Nat.lt_of_lt_of_le hp hle, hlisted, size', hwindow', fun path hpath => ?_⟩
        refine hreaches' path ((hpaths path _ hpath).resolve_right ?_)
        rintro ⟨heq, -⟩
        omega

theorem drafts_new (draftTokenNum : Nat) : Drafts s batchSize tokens (DraftTree.new draftTokenNum) [] := by
  have hnone : ∀ path q, TreePath (DraftTree.new draftTokenNum) path q → path = [] := by
    intro path q hpath
    cases hpath with
    | root => rfl
    | step _ hmem =>
      rw [DraftTree.next_new] at hmem
      cases hmem
  refine ⟨DraftTree.ok_new draftTokenNum, fun p => ?_, fun path q hpath hne => absurd (hnone path q hpath) hne,
    fun e he => absurd he List.not_mem_nil⟩
  rw [DraftTree.next_new]
  exact List.nodup_nil

/-- A matched node stands at the root. -/
theorem Drafts.start (h : Linked s) {entries : List (Nat × Nat)} (hd : Drafts s batchSize tokens tree entries)
    {entry : Nat × Nat} (hentry : entry ∈ s.matchNodes tokens batchSize) :
    Drafts s batchSize tokens tree ((0, entry.1) :: entries) := by
  have hlisted := h.matchNodes_mem hentry
  obtain ⟨size, hsize, hdescend⟩ := List.mem_filterMap.mp hentry
  obtain ⟨node, hnode, rfl⟩ := Option.map_eq_some_iff.mp hdescend
  rw [List.mem_reverse, List.mem_range'_1] at hsize
  refine ⟨hd.ok, hd.keys, hd.continues, fun e he => ?_⟩
  rcases List.mem_cons.mp he with rfl | hold
  · refine ⟨hd.ok.cursor, hlisted, size, ⟨hsize.1, by omega, by omega⟩, fun path hpath => ?_⟩
    rw [hd.ok.path_root hpath, Reaches, List.append_nil]
    exact hnode
  · exact hd.stands e hold

/-- A loop that ends well keeps an invariant of its body. -/
theorem foldlM_keeps {ε σ τ : Type} (inv : σ → Prop) {body : σ → τ → Except ε σ} {xs : List τ} {a b : σ}
    (hbody : ∀ a b, inv a → ∀ x ∈ xs, body a x = .ok b → inv b) (ha : inv a) (hrun : xs.foldlM body a = .ok b) :
    inv b := by
  induction xs generalizing a with
  | nil =>
    cases hrun
    exact ha
  | cons x xs ih =>
    rw [List.foldlM_cons] at hrun
    obtain ⟨c, hc, hrest⟩ := bind_ok hrun
    exact ih (fun a b hinv y hy => hbody a b hinv y (List.mem_cons_of_mem x hy))
      (hbody a c ha x List.mem_cons_self hc) hrest

section Loops

variable {D : Type} (platform : Platform D) {draftTokenNum : Nat}

/-- Positions and nodes of a queue. -/
abbrev bfsEntries (queue : List (Ngram.BfsEntry D)) : List (Nat × Nat) := queue.map fun e => (e.1, e.2.2)

theorem bfsChildren_drafts (h : Linked s) {parent node : Nat} (breadth : D) (children : List Nat)
    {queue : List (Ngram.BfsEntry D)} (hchildren : ∀ child ∈ children,
      (s.nodes node).find (s.nodes child).token = some child)
    (hd : Drafts s batchSize tokens tree ((parent, node) :: bfsEntries queue)) :
    Drafts s batchSize tokens (Ngram.bfsChildren s draftTokenNum parent breadth children (tree, queue)).1
      ((parent, node) ::
        bfsEntries (Ngram.bfsChildren s draftTokenNum parent breadth children (tree, queue)).2) := by
  induction children generalizing tree queue with
  | nil => exact hd
  | cons child children ih =>
    have hrest := fun c hc => hchildren c (List.mem_cons_of_mem child hc)
    rw [Ngram.bfsChildren, List.foldl_cons, ← Ngram.bfsChildren]
    by_cases hlt : tree.cursor ≤ draftTokenNum
    · simp only [if_pos hlt]
      refine ih hrest ((hd.place h (hchildren child List.mem_cons_self)).subset fun e he => ?_)
      simp only [bfsEntries, List.map_append, List.map_cons, List.map_nil, List.mem_cons, List.mem_append,
        List.not_mem_nil, or_false] at he ⊢
      tauto
    · simp only [if_neg hlt]
      exact ih hrest hd

/-- A node's list of children holds what `find` finds. -/
theorem Linked.find_child (h : Linked s) {node child : Nat} (hnode : node ∈ s.root :: s.globalLru)
    (hchild : child ∈ (s.nodes node).child.map Prod.snd) :
    (s.nodes node).find (s.nodes child).token = some child :=
  (h.node_ok node hnode).find_of_mem ((h.node_ok node hnode).mem_of_lru hchild).2.2

theorem bfsLoop_drafts (h : Linked s) (scale : D) (fuel : Nat) {out : DraftTree} {queue : List (Ngram.BfsEntry D)}
    (hd : Drafts s batchSize tokens tree (bfsEntries queue))
    (hrun : Ngram.bfsLoop platform s draftTokenNum scale fuel tree queue = .ok out) :
    Drafts s batchSize tokens out [] := by
  induction fuel generalizing tree queue with
  | zero =>
    cases queue with
    | nil =>
      rw [Ngram.bfsLoop, Except.ok.injEq] at hrun
      exact hrun ▸ hd
    | cons e queue =>
      rw [Ngram.bfsLoop] at hrun
      split at hrun
      · cases hrun
      · cases hrun
        exact hd.subset (List.nil_subset _)
  | succ fuel ih =>
    cases queue with
    | nil =>
      rw [Ngram.bfsLoop, Except.ok.injEq] at hrun
      exact hrun ▸ hd
    | cons e queue =>
      rw [Ngram.bfsLoop] at hrun
      split at hrun
      · have hlisted := (hd.stands _ List.mem_cons_self).listed
        refine ih ((bfsChildren_drafts h _ _ (fun child hchild => ?_) hd).subset (List.subset_cons_self _ _)) hrun
        exact h.find_child hlisted ((h.node_ok _ hlisted).lru_perm.subset (List.mem_of_mem_take hchild))
      · cases hrun
        exact hd.subset (List.nil_subset _)

/-- Heap entries: children of nodes that stand at their parent positions. -/
def HeapDrafts (s : Ngram) (batchSize : Nat) (tokens : List Int) (draft : DraftTree × List (HeapEntry D)) : Prop :=
  ∃ entries, Drafts s batchSize tokens draft.1 entries ∧ ∀ e ∈ draft.2, ∃ node, (e.1, node) ∈ entries ∧
    (s.nodes node).find (s.nodes e.2.1).token = some e.2.1

theorem addToHeap_drafts (h : Linked s) {entries : List (Nat × Nat)} {pos node : Nat} {prob : D}
    {heap : List (HeapEntry D)} (hd : Drafts s batchSize tokens tree entries) (hmem : (pos, node) ∈ entries)
    (hheap : ∀ e ∈ heap, ∃ node, (e.1, node) ∈ entries ∧
      (s.nodes node).find (s.nodes e.2.1).token = some e.2.1) :
    HeapDrafts s batchSize tokens (tree, Ngram.addToHeap platform s pos node prob heap) := by
  refine ⟨entries, hd, fun e he => ?_⟩
  obtain ⟨entry, hentry, hperm⟩ := addToHeap_perm platform (s := s) pos node prob heap
  rcases List.mem_append.mp (hperm.subset he) with hold | hnew
  · exact hheap e hold
  · obtain ⟨child, hchild, rfl⟩ := List.mem_map.mp hnew
    have hlisted := (hd.stands _ hmem).listed
    rw [(hentry child).1, (hentry child).2]
    exact ⟨node, hmem, h.find_child hlisted ((h.node_ok _ hlisted).sorted_perm.subset (List.mem_of_mem_take hchild))⟩

theorem probLoop_drafts (h : Linked s) (fuel : Nat) {heap : List (HeapEntry D)}
    {out : DraftTree × List (HeapEntry D)} (hd : HeapDrafts s batchSize tokens (tree, heap))
    (hrun : Ngram.probLoop platform s draftTokenNum fuel tree heap = .ok out) : HeapDrafts s batchSize tokens out := by
  induction fuel generalizing tree heap with
  | zero =>
    cases heap with
    | nil =>
      rw [Ngram.probLoop, Except.ok.injEq] at hrun
      exact hrun ▸ hd
    | cons e heap =>
      rw [Ngram.probLoop] at hrun
      split at hrun
      · cases hrun
      · cases hrun
        exact hd
  | succ fuel ih =>
    cases heap with
    | nil =>
      rw [Ngram.probLoop, Except.ok.injEq] at hrun
      exact hrun ▸ hd
    | cons e heap =>
      rw [Ngram.probLoop] at hrun
      split at hrun
      · obtain ⟨entries, hdrafts, hheap⟩ := hd
        obtain ⟨node, hmem, hfind⟩ := hheap e List.mem_cons_self
        have hplace := Drafts.place h (hdrafts.subset (List.cons_subset.mpr ⟨hmem, List.Subset.refl entries⟩)) hfind
        refine ih (addToHeap_drafts platform h hplace List.mem_cons_self fun e' he' => ?_) hrun
        obtain ⟨node', hmem', hfind'⟩ := hheap e' (List.mem_cons_of_mem _ ((platform.pop_perm e heap).subset he'))
        exact ⟨node', List.mem_cons_of_mem _ (List.mem_cons_of_mem _ hmem'), hfind'⟩
      · cases hrun
        exact hd

/-! ## The requests -/

theorem draftSound_of_drafts {draftTokenNum : Nat} (hd : Drafts s batchSize tokens tree [])
    (hcursor : tree.cursor ≤ draftTokenNum + 1) {r : NgramResult}
    (hrun : fillBack platform tree tokens (draftTokenNum + 1) = .ok r) :
    DraftSound s batchSize (draftTokenNum + 1) tokens r := by
  rw [fillBack] at hrun
  split at hrun
  · cases hrun
  next last hlast =>
    obtain ⟨htoken, hmask, hfirst, parent, drafted, htree, hpaths⟩ :=
      fillResult_tree platform hd.ok hd.keys hcursor hrun
    refine ⟨htoken, hmask, hfirst.trans hlast.symm, parent, drafted, htree, fun i hi hdrafted => ?_⟩
    obtain ⟨path, b, hroot, hpath, hne⟩ := hpaths i hi hdrafted
    exact ⟨path, hroot, hd.continues path b hpath hne⟩

theorem matchBFS_sound (h : Linked s) (hne : tokens ≠ []) (batchSize : Nat) :
    ∃ r, Ngram.matchBFS platform s tokens batchSize = .ok r ∧
      DraftSound s batchSize (s.param.getDraftTokenNum batchSize + 1) tokens r := by
  obtain ⟨tree, hloops, hdrafting⟩ := matchBFS_loops platform h tokens batchSize
  obtain ⟨r, hr⟩ := fillBack_ok platform hdrafting.ok hne hdrafting.cursor
  refine ⟨r, ?_, draftSound_of_drafts platform ?_ hdrafting.cursor hr⟩
  · simp only [Ngram.matchBFS, bind, Except.bind] at hloops ⊢
    rw [hloops]
    exact hr
  · exact foldlM_keeps (Drafts s batchSize tokens · [])
      (fun a b ha entry hentry hrun => bfsLoop_drafts platform h _ _ (ha.start h hentry) hrun) (drafts_new _) hloops

theorem matchProb_sound (h : Linked s) (hne : tokens ≠ []) (batchSize : Nat) :
    ∃ r, Ngram.matchProb platform s tokens batchSize = .ok r ∧
      DraftSound s batchSize (s.param.getDraftTokenNum batchSize + 1) tokens r := by
  obtain ⟨draft, hloops, hdrafting⟩ := matchProb_loops platform h tokens batchSize
  obtain ⟨r, hr⟩ := fillBack_ok platform hdrafting.drafting.ok hne hdrafting.drafting.cursor
  have hkeeps : HeapDrafts s batchSize tokens draft := by
    refine foldlM_keeps (HeapDrafts s batchSize tokens) (fun a b ha entry hentry hrun => ?_)
      ⟨[], drafts_new _, fun e he => by cases he⟩ hloops
    obtain ⟨entries, hd, hheap⟩ := ha
    refine probLoop_drafts platform h _ (addToHeap_drafts platform h (hd.start h hentry) List.mem_cons_self
      fun e he => ?_) hrun
    obtain ⟨node, hmem, hfind⟩ := hheap e he
    exact ⟨node, List.mem_cons_of_mem _ hmem, hfind⟩
  obtain ⟨entries, hd, -⟩ := hkeeps
  refine ⟨r, ?_, draftSound_of_drafts platform (hd.subset (List.nil_subset _)) hdrafting.drafting.cursor hr⟩
  simp only [Ngram.matchProb, bind, Except.bind] at hloops ⊢
  rw [hloops]
  exact hr

end Loops

end Drafting

/-! ## Whole batches -/

section Batch

variable {D : Type} (platform : Platform D) {s s' : Ngram} {batch : List (List Int)}

theorem batchMatch_sound (h : Linked s) (hne : ∀ tokens ∈ batch, tokens ≠ []) :
    ∃ results, Ngram.batchMatch platform s batch =
        .ok ⟨results.flatMap NgramResult.token, results.flatMap NgramResult.mask⟩ ∧
      List.Forall₂ (DraftSound s batch.length (s.param.getDraftTokenNum batch.length + 1)) batch results := by
  obtain ⟨results, hrun, hsound⟩ := mapM_forall₂ fun tokens htokens =>
    show ∃ r, (if s.param.matchType = "BFS" then Ngram.matchBFS platform s tokens batch.length
        else Ngram.matchProb platform s tokens batch.length) = .ok r ∧
      DraftSound s batch.length (s.param.getDraftTokenNum batch.length + 1) tokens r by
    split
    · exact matchBFS_sound platform h (hne tokens htokens) batch.length
    · exact matchProb_sound platform h (hne tokens htokens) batch.length
  refine ⟨results, ?_, hsound⟩
  rw [Ngram.batchMatch, hrun]
  rfl

/-- All results together have `n` tokens for each request. -/
theorem length_results {n batchSize : Nat} {results : List NgramResult}
    (h : List.Forall₂ (DraftSound s batchSize n) batch results) :
    (results.flatMap NgramResult.token).length = batch.length * n := by
  induction h with
  | nil => simp
  | cons hr _ ih =>
    rw [List.flatMap_cons, List.length_append, ih, hr.token_length, List.length_cons]
    ring

/-- The answer to a batch shows how many tokens a request gets. -/
theorem DraftsSound.length_le (h : DraftsSound platform s batch) {r : NgramResult}
    (hrun : Ngram.batchMatch platform s batch = .ok r) : r.token.length ≤ batch.length * s.param.draftTokenNum := by
  obtain ⟨results, n, hresults, hle, hsound⟩ := h
  obtain rfl := Except.ok.inj (hrun.symm.trans hresults)
  rw [length_results hsound]
  exact Nat.mul_le_mul_left _ hle

/-! ### The trie of a run -/

theorem Linked.of_insertWindow {window : List Int} (h : Linked s) (hrun : s.insertWindow window = .ok s') :
    Linked s' ∧ s'.param = s.param := by
  rcases Nat.lt_trichotomy window.length s.capacity with hlt | heq | hgt
  · obtain ⟨t, ht, hlinked, hframe, -⟩ := h.insertWindow window hlt
    obtain rfl := Except.ok.inj (hrun.symm.trans ht)
    exact ⟨hlinked, hframe.param⟩
  · exact absurd hrun (h.insertWindow_fails heq.symm)
  · obtain ⟨t, ht, -⟩ := bind_ok hrun
    have hcount := h.count_free
    rw [Ngram.makeRoom, if_pos (by omega), Ngram.squeeze, if_pos (by rw [h.pool]; omega)] at ht
    cases ht

theorem Linked.of_run {op : NgramOp} (h : Linked s) (hrun : op.run s = .ok s') : Linked s' ∧ s'.param = s.param := by
  cases op with
  | insert data =>
    refine foldlM_keeps (fun t => Linked t ∧ t.param = s.param) (fun a b ha window _ hab => ?_) ⟨h, rfl⟩ hrun
    obtain ⟨hlinked, hparam⟩ := ha.1.of_insertWindow hab
    exact ⟨hlinked, hparam.trans ha.2⟩
  | reset =>
    have hcount := h.count_free
    obtain ⟨t, ht, hlinked, hparam, -⟩ := reset_linked (s := s) (by omega)
    obtain rfl := Except.ok.inj (hrun.symm.trans ht)
    exact ⟨hlinked, hparam⟩

/-- Every trie that a cache holds between its operations. -/
theorem linked_of_runs {capacity : Nat} {param : NgramParam} {ops : List NgramOp}
    (hs : Ngram.create capacity param = .ok s) (hrun : ops.foldlM NgramOp.run s = .ok s') :
    Linked s' ∧ s'.param = param := by
  obtain ⟨hlinked, hparam, -⟩ := create_linked hs
  refine foldlM_keeps (fun t => Linked t ∧ t.param = param) (fun a b ha op _ hab => ?_) ⟨hlinked, hparam⟩ hrun
  obtain ⟨hnext, hsame⟩ := ha.1.of_run hab
  exact ⟨hnext, hsame.trans ha.2⟩

theorem check_draftTokenNum {param : NgramParam} {u : Unit} (h : param.check = .ok u) : 0 < param.draftTokenNum := by
  unfold NgramParam.check at h
  obtain ⟨_, -, h⟩ := bind_ok h
  obtain ⟨_, -, h⟩ := bind_ok h
  obtain ⟨_, -, h⟩ := bind_ok h
  obtain ⟨_, -, h⟩ := bind_ok h
  obtain ⟨_, -, h⟩ := bind_ok h
  obtain ⟨_, -, h⟩ := bind_ok h
  obtain ⟨_, hpos, -⟩ := bind_ok h
  exact of_decide_eq_true (require_ok hpos)

/-- A batch setting counts the drafted tokens, the default counts the root as well. -/
theorem getDraftTokenNum_lt_iff {param : NgramParam} (hpos : 0 < param.draftTokenNum) (batchSize : Nat) :
    param.getDraftTokenNum batchSize < param.draftTokenNum ↔
      ∀ config, (param.batchDraftTokenNum[batchSize]?).join = some config → config < param.draftTokenNum := by
  rw [NgramParam.getDraftTokenNum]
  cases (param.batchDraftTokenNum[batchSize]?).join with
  | none => simp [hpos]
  | some config => simp

end Batch

/-- Windows of three tokens, and a setting for batches of one. -/
def oneRequestSetting (draftTokenNum : Nat) : NgramParam := ⟨1, 1, 1, 2, 3, 3, "PROB", [], [none, some draftTokenNum]⟩

/-- A cache with that setting after the sequence 7, 8, 9. -/
def settingCache (draftTokenNum : Nat) : Ngram :=
  ((Ngram.create 8 (oneRequestSetting draftTokenNum)).bind fun s => s.insert [7, 8, 9]).toOption.getD
    (threeTokenCache 4)

end QCFuse.Guarantees
