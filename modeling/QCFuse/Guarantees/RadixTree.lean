import QCFuse.Source.RadixCache

/-!
# What a walk through the radix tree does

The meaning of a tree is the slots it stores for the prefixes along its paths. A match and an
insertion change the tree in the same ways, listed in `Walk`; what they keep and what they
return is derived from that list.
-/

set_option autoImplicit false

namespace QCFuse.Guarantees

open QCFuse.Library QCFuse.Source

variable {Tok : Type}

/-- The tree stores `v` for the tokens `p` under the extra key: `p` runs along a path and ends in
some node's key, and `v` are the slots on the way. -/
def TreeStores : Children Tok → Option String → List Tok → List Int → Prop
  | .nil, _, _, _ => False
  | .cons _ node below rest, extraKey, p, v =>
    (node.key.extraKey = extraKey ∧
      ((p ≠ [] ∧ p <+: node.key.tokenIds ∧ v = node.value.take p.length) ∨
        ∃ p' v', p = node.key.tokenIds ++ p' ∧ v = node.value ++ v' ∧ TreeStores below extraKey p' v')) ∨
      TreeStores rest extraKey p v

/-- A node as the tree keeps it: some whole pages with a slot for each token, filed under its
first page. -/
structure NodeShape (P : Nat) (childKey : ChildKey Tok) (node : TreeNode Tok) : Prop where
  nonempty : node.key.tokenIds ≠ []
  aligned : P ∣ node.key.len
  valued : node.value.length = node.key.len
  filed : childKey = getChildKey P node.key

/-- Every node has its shape, a dictionary has a key once, and children stay in the namespace. -/
def Shaped (P : Nat) (f : Children Tok) : Prop :=
  f.keys.Nodup ∧ f.Forall fun childKey node below =>
    NodeShape P childKey node ∧ below.keys.Nodup ∧ ∀ c ∈ below.roots, c.key.extraKey = node.key.extraKey

theorem Shaped.cons {P : Nat} {childKey : ChildKey Tok} {node : TreeNode Tok} {below rest : Children Tok}
    (h : Shaped P (.cons childKey node below rest)) :
    NodeShape P childKey node ∧ childKey ∉ rest.keys ∧ Shaped P below ∧ Shaped P rest ∧
      ∀ c ∈ below.roots, c.key.extraKey = node.key.extraKey := by
  obtain ⟨hkeys, ⟨hshape, hbelow, hextra⟩, hforall, hrest⟩ := h
  obtain ⟨hnot, hnodup⟩ := List.nodup_cons.mp hkeys
  exact ⟨hshape, hnot, ⟨hbelow, hforall⟩, ⟨hnodup, hrest⟩, hextra⟩

theorem shaped_cons {P : Nat} {childKey : ChildKey Tok} {node : TreeNode Tok} {below rest : Children Tok}
    (hshape : NodeShape P childKey node) (hnot : childKey ∉ rest.keys) (hbelow : Shaped P below)
    (hrest : Shaped P rest) (hextra : ∀ c ∈ below.roots, c.key.extraKey = node.key.extraKey) :
    Shaped P (.cons childKey node below rest) :=
  ⟨List.nodup_cons.mpr ⟨hnot, hrest.1⟩, ⟨hshape, hbelow.1, hextra⟩, hbelow.2, hrest.2⟩

theorem shaped_nil (P : Nat) : Shaped P (.nil : Children Tok) := ⟨List.nodup_nil, trivial⟩

/-! ## Matching keys -/

section Matching

variable {P : Nat}

/-- What the key loop finds: whole pages on which the keys agree, and no more of them. -/
structure Matches (P n : Nat) (a b : List Tok) : Prop where
  aligned : P ∣ n
  left : n ≤ a.length
  right : n ≤ b.length
  agree : a.take n = b.take n
  stop : n < a.length → n < b.length → (a.drop n).take P ≠ (b.drop n).take P

theorem keyMatchLoop_matches [DecidableEq Tok] (hP : 0 < P) (fuel : Nat) (a b : List Tok) (ha : P ∣ a.length)
    (hb : P ∣ b.length) (hfuel : min a.length b.length ≤ fuel) :
    Matches P (keyMatchLoop P fuel a b) a b := by
  induction fuel generalizing a b with
  | zero =>
    refine ⟨dvd_zero _, Nat.zero_le _, Nat.zero_le _, rfl, fun hl hr => ?_⟩
    simp only [keyMatchLoop] at hl hr
    omega
  | succ fuel ih =>
    unfold keyMatchLoop
    split
    next hempty =>
      refine ⟨dvd_zero _, Nat.zero_le _, Nat.zero_le _, rfl, fun hl hr => ?_⟩
      rcases hempty with rfl | rfl
      · simp at hl
      · simp at hr
    next hne =>
      push Not at hne
      split
      next hdiffer => exact ⟨dvd_zero _, Nat.zero_le _, Nat.zero_le _, rfl, fun _ _ => by simpa using hdiffer⟩
      next hsame =>
        push Not at hsame
        have hla : P ≤ a.length := Nat.le_of_dvd (List.length_pos_of_ne_nil hne.1) ha
        have hlb : P ≤ b.length := Nat.le_of_dvd (List.length_pos_of_ne_nil hne.2) hb
        have hrec := ih (a.drop P) (b.drop P)
          (by rw [List.length_drop]; exact Nat.dvd_sub ha (dvd_refl P))
          (by rw [List.length_drop]; exact Nat.dvd_sub hb (dvd_refl P))
          (by rw [List.length_drop, List.length_drop]; omega)
        generalize keyMatchLoop P fuel (a.drop P) (b.drop P) = n at hrec
        have hleft := hrec.left
        have hright := hrec.right
        rw [List.length_drop] at hleft hright
        refine ⟨(Nat.dvd_add_right (dvd_refl P)).mpr hrec.aligned, by omega, by omega, ?_, fun hl hr => ?_⟩
        · rw [List.take_add, List.take_add, hsame, hrec.agree]
        · have hstop := hrec.stop (by rw [List.length_drop]; omega) (by rw [List.length_drop]; omega)
          rwa [List.drop_drop, List.drop_drop] at hstop

theorem keyMatch_matches [DecidableEq Tok] (hP : 0 < P) {a b : RadixKey Tok} (ha : P ∣ a.len) (hb : P ∣ b.len) :
    Matches P (keyMatch P a b) a.tokenIds b.tokenIds :=
  keyMatchLoop_matches hP _ _ _ ha hb le_rfl

/-- Keys that share their first page agree on a page at least. -/
theorem Matches.pos {n : Nat} {a b : List Tok} (h : Matches P n a b) (ha : a ≠ []) (hb : b ≠ [])
    (hpage : a.take P = b.take P) : 0 < n := by
  by_contra hzero
  have hn : n = 0 := by omega
  subst hn
  exact h.stop (List.length_pos_of_ne_nil ha) (List.length_pos_of_ne_nil hb) (by simpa using hpage)

/-- A common prefix of whole pages is no longer than the match. -/
theorem Matches.longest {n : Nat} {a b p : List Tok} (h : Matches P n a b) (hp : P ∣ p.length)
    (hpa : p <+: a) (hpb : p <+: b) : p.length ≤ n := by
  by_contra hlt
  have hla := hpa.length_le
  have hlb := hpb.length_le
  have hroom : n + P ≤ p.length := by
    have hgap := Nat.le_of_dvd (by omega) (Nat.dvd_sub hp h.aligned)
    omega
  refine h.stop (by omega) (by omega) ?_
  have hpage : ∀ {c : List Tok}, p <+: c → (c.drop n).take P = (p.drop n).take P := by
    rintro c ⟨t, rfl⟩
    rw [List.drop_append_of_le_length (by omega),
      List.take_append_of_le_length (by rw [List.length_drop]; omega)]
  rw [hpage hpa, hpage hpb]

theorem Matches.whole {n : Nat} {a b : List Tok} (h : Matches P n a b) (hn : ¬ n < a.length) :
    n = a.length ∧ a <+: b := by
  have hlen : n = a.length := Nat.le_antisymm h.left (by omega)
  refine ⟨hlen, ?_⟩
  have hagree := h.agree
  rw [hlen, List.take_length] at hagree
  rw [hagree]
  exact List.take_prefix _ _

theorem drop_ne_nil_iff {key : RadixKey Tok} {n : Nat} : (key.drop n).tokenIds = [] ↔ key.len ≤ n := by
  rw [RadixKey.drop, List.drop_eq_nil_iff, RadixKey.len]

theorem dvd_len_drop {key : RadixKey Tok} {n : Nat} (hkey : P ∣ key.len) (hn : P ∣ n) :
    P ∣ (key.drop n).len := by
  rw [RadixKey.len, RadixKey.drop, List.length_drop]
  exact Nat.dvd_sub hkey hn

end Matching

/-! ## The ways a walk goes -/

/-- A walk for `key` below a node: `n` tokens were found, with the slots `s`. With values to insert
(`w`) it files a leaf for the rest of the key. -/
inductive Walk (P newId : Nat) :
    Option (List Int) → RadixKey Tok → Nat → List Int → Children Tok → Children Tok → Prop where
  | missing (key : RadixKey Tok) : Walk P newId none key 0 [] .nil .nil
  | added (now : Int) (key : RadixKey Tok) (value : List Int) : Walk P newId (some value) key 0 [] .nil
      (.cons (getChildKey P key) (newLeaf now newId key value) .nil .nil)
  | next {w : Option (List Int)} {key : RadixKey Tok} {n : Nat} {s : List Int} {childKey : ChildKey Tok}
      {node : TreeNode Tok} {below rest rest' : Children Tok} :
      childKey ≠ getChildKey P key → Walk P newId w key n s rest rest' →
      Walk P newId w key n s (.cons childKey node below rest) (.cons childKey node below rest')
  | whole {w : Option (List Int)} {key : RadixKey Tok} {node : TreeNode Tok} (now : Int)
      (below rest : Children Tok) : node.key.tokenIds = key.tokenIds →
      Walk P newId w key key.len node.value (.cons (getChildKey P key) node below rest)
        (.cons (getChildKey P key) (node.touch now) below rest)
  | deeper {w : Option (List Int)} {key : RadixKey Tok} {n : Nat} {s : List Int} {node : TreeNode Tok}
      (now : Int) {below below' : Children Tok} (rest : Children Tok) :
      node.key.tokenIds <+: key.tokenIds → node.key.len < key.len →
      Walk P newId (w.map (·.drop node.key.len)) (key.drop node.key.len) n s below below' →
      Walk P newId w key (node.key.len + n) (node.value ++ s)
        (.cons (getChildKey P key) node below rest)
        (.cons (getChildKey P key) (node.touch now) below' rest)
  | split {w : Option (List Int)} {key : RadixKey Tok} {n : Nat} {node : TreeNode Tok} (now : Int)
      (below rest : Children Tok) : Matches P n node.key.tokenIds key.tokenIds → 0 < n →
      n < node.key.len → w = none ∨ n = key.len →
      Walk P newId w key n (node.value.take n) (.cons (getChildKey P key) node below rest)
        (.cons (getChildKey P key) (splitNode now newId (node.touch now) n).1
          (.cons (getChildKey P (splitNode now newId (node.touch now) n).2.key)
            (splitNode now newId (node.touch now) n).2 below .nil) rest)
  | splitAdded {key : RadixKey Tok} {n : Nat} {node : TreeNode Tok} (now : Int) (value : List Int)
      (below rest : Children Tok) : Matches P n node.key.tokenIds key.tokenIds → 0 < n →
      n < node.key.len → n < key.len →
      Walk P newId (some value) key n (node.value.take n) (.cons (getChildKey P key) node below rest)
        (.cons (getChildKey P key) (splitNode now newId (node.touch now) n).1
          (.cons (getChildKey P (splitNode now newId (node.touch now) n).2.key)
            (splitNode now newId (node.touch now) n).2 below
            (.cons (getChildKey P (key.drop n))
              (newLeaf now (newId + 1) (key.drop n) (value.drop n)) .nil .nil)) rest)

section Walks

variable [DecidableEq Tok] {P newId : Nat}

/-- The walk reaches an entry of its child key with a node that shares the first page. -/
theorem matches_of_filed (hP : 0 < P) {node : TreeNode Tok} {key : RadixKey Tok} {childKey : ChildKey Tok}
    (hshape : NodeShape P childKey node) (hfound : childKey = getChildKey P key)
    (hkey : key.tokenIds ≠ []) (halign : P ∣ key.len) :
    node.key.extraKey = key.extraKey ∧
      Matches P (keyMatch P node.key key) node.key.tokenIds key.tokenIds ∧
        0 < keyMatch P node.key key := by
  have hsame := hshape.filed.symm.trans hfound
  have hmatch := keyMatch_matches hP hshape.aligned halign
  exact ⟨congrArg Prod.fst hsame, hmatch, hmatch.pos hshape.nonempty hkey (congrArg Prod.snd hsame)⟩

/-- `_match_prefix_helper` walks. -/
theorem matchPrefixHelper_walk (newId : Nat) (hP : 0 < P) (f : Children Tok) (now : Int) (key : RadixKey Tok)
    (hshape : Shaped P f) (hkey : key.tokenIds ≠ []) (halign : P ∣ key.len) :
    ∃ n, Walk P newId none key n (matchPrefixHelper P newId now key f).1.flatten f
      (matchPrefixHelper P newId now key f).2.2 := by
  induction f generalizing now key with
  | nil => exact ⟨0, .missing key⟩
  | cons childKey node below rest ihb ihr =>
    obtain ⟨hnode, hnot, hbelow, hrest, hextra⟩ := hshape.cons
    unfold matchPrefixHelper
    by_cases hfound : childKey = getChildKey P key
    · obtain ⟨hnamespace, hmatch, hpos⟩ := matches_of_filed hP hnode hfound hkey halign
      subst hfound
      rw [if_pos rfl]
      by_cases hshort : keyMatch P node.key key < node.key.len
      · refine ⟨keyMatch P node.key key, ?_⟩
        simp only [if_pos hshort, List.flatten_singleton]
        exact .split now below rest hmatch hpos hshort (Or.inl rfl)
      · obtain ⟨hlen, hpre⟩ := hmatch.whole hshort
        by_cases hmore : (key.drop (keyMatch P node.key key)).tokenIds = []
        · refine ⟨key.len, ?_⟩
          simp only [if_neg hshort, if_pos hmore, List.flatten_singleton]
          rw [drop_ne_nil_iff, hlen] at hmore
          exact .whole now below rest (hpre.eq_of_length_le hmore)
        · have hlt : node.key.len < key.len := by
            rw [drop_ne_nil_iff, hlen] at hmore
            exact Nat.lt_of_not_le hmore
          obtain ⟨n, hwalk⟩ := ihb (now + 1) (key.drop (keyMatch P node.key key)) hbelow hmore
            (dvd_len_drop halign hmatch.aligned)
          refine ⟨node.key.len + n, ?_⟩
          simp only [if_neg hshort, if_neg hmore, List.flatten_cons]
          rw [hlen] at hwalk ⊢
          exact .deeper now rest hpre hlt hwalk
    · rw [if_neg hfound]
      obtain ⟨n, hwalk⟩ := ihr now key hrest hkey halign
      exact ⟨n, .next hfound hwalk⟩

/-- `_insert_helper` walks, and returns how much it found. -/
theorem insertHelper_walk (newId : Nat) (hP : 0 < P) (f : Children Tok) (now : Int) (key : RadixKey Tok)
    (value : List Int) (hshape : Shaped P f) (hkey : key.tokenIds ≠ []) (halign : P ∣ key.len) :
    ∃ s, Walk P newId (some value) key (insertHelper P newId now key value f).1 s f
      (insertHelper P newId now key value f).2 := by
  induction f generalizing now key value with
  | nil => exact ⟨[], .added now key value⟩
  | cons childKey node below rest ihb ihr =>
    obtain ⟨hnode, hnot, hbelow, hrest, hextra⟩ := hshape.cons
    unfold insertHelper
    by_cases hfound : childKey = getChildKey P key
    · obtain ⟨hnamespace, hmatch, hpos⟩ := matches_of_filed hP hnode hfound hkey halign
      subst hfound
      rw [if_pos rfl]
      by_cases hshort : keyMatch P node.key key < node.key.len
      · refine ⟨node.value.take (keyMatch P node.key key), ?_⟩
        by_cases hmore : (key.drop (keyMatch P node.key key)).tokenIds = []
        · simp only [if_pos hshort, if_pos hmore]
          rw [drop_ne_nil_iff] at hmore
          exact .split now below rest hmatch hpos hshort (Or.inr (Nat.le_antisymm hmatch.right hmore))
        · simp only [if_pos hshort, if_neg hmore]
          rw [drop_ne_nil_iff] at hmore
          exact .splitAdded now value below rest hmatch hpos hshort (Nat.lt_of_not_le hmore)
      · obtain ⟨hlen, hpre⟩ := hmatch.whole hshort
        by_cases hmore : (key.drop (keyMatch P node.key key)).tokenIds = []
        · simp only [if_neg hshort, if_pos hmore]
          rw [drop_ne_nil_iff, hlen] at hmore
          have heq := hpre.eq_of_length_le hmore
          refine ⟨node.value, ?_⟩
          rw [hlen, heq]
          exact .whole now below rest heq
        · have hlt : node.key.len < key.len := by
            rw [drop_ne_nil_iff, hlen] at hmore
            exact Nat.lt_of_not_le hmore
          obtain ⟨s, hwalk⟩ := ihb (now + 1) (key.drop (keyMatch P node.key key))
            (value.drop (keyMatch P node.key key)) hbelow hmore (dvd_len_drop halign hmatch.aligned)
          refine ⟨node.value ++ s, ?_⟩
          simp only [if_neg hshort, if_neg hmore]
          rw [hlen] at hwalk ⊢
          exact .deeper now rest hpre hlt hwalk
    · rw [if_neg hfound]
      obtain ⟨s, hwalk⟩ := ihr now key value hrest hkey halign
      exact ⟨s, .next hfound hwalk⟩

end Walks

/-! ## What a walk keeps -/

def ids (f : Children Tok) : List Nat := f.nodes.map (·.id)

@[simp] theorem ids_nil : ids (.nil : Children Tok) = [] := rfl

@[simp] theorem ids_cons (childKey : ChildKey Tok) (node : TreeNode Tok) (below rest : Children Tok) :
    ids (.cons childKey node below rest) = node.id :: (ids below ++ ids rest) := by
  simp [ids, Forest.nodes]

/-- A lock count is the number of the holders' nodes at or below the node. -/
def LocksCounted (holds : List Nat) (f : Children Tok) : Prop :=
  f.Forall fun _ node below => node.lockRef = (holds.countP fun h => h ∈ node.id :: ids below : Nat)

/-- Key lengths, weighted by what a lock count is worth. -/
def lockedSize (weight : Int → Int) (f : Children Tok) : Int :=
  (f.nodes.map fun n => weight n.lockRef * n.key.len).sum

@[simp] theorem lockedSize_nil (weight : Int → Int) : lockedSize weight (.nil : Children Tok) = 0 := rfl

@[simp] theorem lockedSize_cons (weight : Int → Int) (childKey : ChildKey Tok) (node : TreeNode Tok)
    (below rest : Children Tok) : lockedSize weight (.cons childKey node below rest) =
      weight node.lockRef * node.key.len + (lockedSize weight below + lockedSize weight rest) := by
  simp [lockedSize, Forest.nodes]

section Split

variable {P newId n : Nat} {now : Int} {node : TreeNode Tok}

theorem len_take {key : RadixKey Tok} (h : n ≤ key.len) : (key.take n).len = n := by
  rw [RadixKey.len, RadixKey.take, List.length_take]
  exact Nat.min_eq_left h

theorem len_drop (key : RadixKey Tok) (n : Nat) : (key.drop n).len = key.len - n := by
  rw [RadixKey.len, RadixKey.drop, List.length_drop, RadixKey.len]

/-- Both halves of a split are nodes of the tree. -/
theorem splitNode_shape (now : Int) (newId : Nat) {childKey : ChildKey Tok} (hnode : NodeShape P childKey node) (hn : P ∣ n)
    (hpos : 0 < n) (hlt : n < node.key.len) :
    NodeShape P childKey (splitNode now newId (node.touch now) n).1 ∧
      NodeShape P (getChildKey P (splitNode now newId (node.touch now) n).2.key)
        (splitNode now newId (node.touch now) n).2 := by
  have hpage : P ≤ n := Nat.le_of_dvd hpos hn
  have hlt' : n < node.key.tokenIds.length := hlt
  have hvalued := hnode.valued
  constructor
  · exact {
      nonempty := by
        show node.key.tokenIds.take n ≠ []
        rw [Ne, List.take_eq_nil_iff, not_or]
        exact ⟨by omega, hnode.nonempty⟩
      aligned := by
        show P ∣ (node.key.take n).len
        rwa [len_take hlt.le]
      valued := by
        show (node.value.take n).length = (node.key.take n).len
        rw [len_take hlt.le, List.length_take]
        omega
      filed := by
        rw [hnode.filed]
        show (node.key.extraKey, node.key.tokenIds.take P) =
          (node.key.extraKey, (node.key.tokenIds.take n).take P)
        rw [List.take_take, Nat.min_eq_left hpage] }
  · exact {
      nonempty := by
        show (node.key.drop n).tokenIds ≠ []
        rw [Ne, drop_ne_nil_iff]
        omega
      aligned := dvd_len_drop hnode.aligned hn
      valued := by
        show (node.value.drop n).length = (node.key.drop n).len
        rw [len_drop, List.length_drop, hvalued]
      filed := rfl }

theorem newLeaf_shape {key : RadixKey Tok} {value : List Int} (hkey : key.tokenIds ≠ [])
    (halign : P ∣ key.len) (hvalue : value.length = key.len) :
    NodeShape P (getChildKey P key) (newLeaf now newId key value) :=
  ⟨hkey, halign, hvalue, rfl⟩

end Split

section Walks

variable {P newId n : Nat} {w : Option (List Int)} {key : RadixKey Tok} {s : List Int} {f f' : Children Tok}

/-- Where the walk may add to a dictionary, the key there is its own, in its own namespace. -/
structure WalkKeeps (P : Nat) (key : RadixKey Tok) (f f' : Children Tok) : Prop where
  shaped : Shaped P f'
  keys : ∀ k ∈ f'.keys, k ∈ f.keys ∨ k = getChildKey P key
  roots : ∀ c ∈ f'.roots, c.key.extraKey = key.extraKey ∨
    ∃ d ∈ f.roots, d.key.extraKey = c.key.extraKey

theorem extraKey_of_filed {childKey : ChildKey Tok} {node : TreeNode Tok}
    (h : NodeShape P childKey node) (hfound : childKey = getChildKey P key) :
    node.key.extraKey = key.extraKey := congrArg Prod.fst (h.filed.symm.trans hfound)

theorem Walk.keeps (h : Walk P newId w key n s f f') (hshape : Shaped P f)
    (hkey : key.tokenIds ≠ []) (halign : P ∣ key.len)
    (hvalue : ∀ value, w = some value → value.length = key.len) : WalkKeeps P key f f' := by
  induction h with
  | missing key => exact ⟨hshape, fun _ h => .inl h, fun c hc => (by cases hc)⟩
  | added now key value =>
    refine ⟨shaped_cons (newLeaf_shape hkey halign (hvalue value rfl)) List.not_mem_nil
      (shaped_nil P) (shaped_nil P) fun c hc => (by cases hc), fun k hk => ?_, fun c hc => ?_⟩
    · exact .inr (List.mem_singleton.mp hk)
    · rw [List.mem_singleton.mp hc]
      exact .inl rfl
  | @next w key n s childKey node below rest rest' hne _ ih =>
    obtain ⟨hnode, hnot, hbelow, hrest, hextra⟩ := hshape.cons
    have hkeeps := ih hrest hkey halign hvalue
    refine ⟨shaped_cons hnode (fun hmem => ?_) hbelow hkeeps.shaped hextra, fun k hk => ?_, fun c hc => ?_⟩
    · rcases hkeeps.keys _ hmem with hmem | hmem
      · exact hnot hmem
      · exact hne hmem
    · rcases List.mem_cons.mp hk with rfl | hk
      · exact .inl List.mem_cons_self
      · exact (hkeeps.keys k hk).imp (List.mem_cons_of_mem _) id
    · rcases List.mem_cons.mp hc with rfl | hc
      · exact .inr ⟨c, List.mem_cons_self, rfl⟩
      · exact (hkeeps.roots c hc).imp id fun ⟨d, hd, heq⟩ => ⟨d, List.mem_cons_of_mem _ hd, heq⟩
  | whole now below rest heq =>
    obtain ⟨hnode, hnot, hbelow, hrest, hextra⟩ := hshape.cons
    have hnamespace := extraKey_of_filed hnode rfl
    refine ⟨shaped_cons ⟨hnode.nonempty, hnode.aligned, hnode.valued, hnode.filed⟩ hnot hbelow hrest
      hextra, fun k hk => .inl hk, fun c hc => ?_⟩
    rcases List.mem_cons.mp hc with rfl | hc
    · exact .inl hnamespace
    · exact .inr ⟨c, List.mem_cons_of_mem _ hc, rfl⟩
  | @deeper w key n s node now below below' rest hpre hlt hwalk ih =>
    obtain ⟨hnode, hnot, hbelow, hrest, hextra⟩ := hshape.cons
    have hnamespace := extraKey_of_filed hnode rfl
    have hkeeps := ih hbelow (by rw [Ne, drop_ne_nil_iff]; omega) (dvd_len_drop halign hnode.aligned)
      fun value hval => by
        obtain ⟨whole, rfl, rfl⟩ := Option.map_eq_some_iff.mp hval
        rw [List.length_drop, len_drop, hvalue whole rfl]
    refine ⟨shaped_cons ⟨hnode.nonempty, hnode.aligned, hnode.valued, hnode.filed⟩ hnot hkeeps.shaped
      hrest fun c hc => ?_, fun k hk => .inl hk, fun c hc => ?_⟩
    · rcases hkeeps.roots c hc with heq | ⟨d, hd, heq⟩
      · exact heq.trans hnamespace.symm
      · exact heq.symm.trans (hextra d hd)
    · rcases List.mem_cons.mp hc with rfl | hc
      · exact .inl hnamespace
      · exact .inr ⟨c, List.mem_cons_of_mem _ hc, rfl⟩
  | split now below rest hmatch hpos hlt _ =>
    obtain ⟨hnode, hnot, hbelow, hrest, hextra⟩ := hshape.cons
    have hnamespace := extraKey_of_filed hnode rfl
    obtain ⟨hupper, hlower⟩ := splitNode_shape now newId hnode hmatch.aligned hpos hlt
    have hdict := shaped_cons hlower List.not_mem_nil hbelow (shaped_nil P) hextra
    refine ⟨shaped_cons hupper hnot hdict hrest fun c hc => ?_, fun k hk => .inl hk, fun c hc => ?_⟩
    · rw [List.mem_singleton.mp hc]
      rfl
    · rcases List.mem_cons.mp hc with rfl | hc
      · exact .inl hnamespace
      · exact .inr ⟨c, List.mem_cons_of_mem _ hc, rfl⟩
  | @splitAdded key n node now value below rest hmatch hpos hlt hlt' =>
    obtain ⟨hnode, hnot, hbelow, hrest, hextra⟩ := hshape.cons
    have hnamespace := extraKey_of_filed hnode rfl
    obtain ⟨hupper, hlower⟩ := splitNode_shape now newId hnode hmatch.aligned hpos hlt
    have hleaf : NodeShape P (getChildKey P (key.drop n))
        (newLeaf now (newId + 1) (key.drop n) (value.drop n)) :=
      newLeaf_shape (by rw [Ne, drop_ne_nil_iff]; omega) (dvd_len_drop halign hmatch.aligned)
        (by rw [List.length_drop, len_drop, hvalue value rfl])
    have hleafDict := shaped_cons hleaf List.not_mem_nil (shaped_nil P) (shaped_nil P)
      fun c hc => (by cases hc)
    have hdict := shaped_cons hlower (fun hmem => ?_) hbelow hleafDict hextra
    · refine ⟨shaped_cons hupper hnot hdict hrest fun c hc => ?_, fun k hk => .inl hk, fun c hc => ?_⟩
      · rcases List.mem_cons.mp hc with rfl | hc
        · rfl
        · rw [List.mem_singleton.mp hc]
          exact hnamespace.symm
      · rcases List.mem_cons.mp hc with rfl | hc
        · exact .inl hnamespace
        · exact .inr ⟨c, List.mem_cons_of_mem _ hc, rfl⟩
    · -- the page behind the split is not that of the lower half
      have hsame : getChildKey P (node.key.drop n) = getChildKey P (key.drop n) :=
        List.mem_singleton.mp hmem
      exact hmatch.stop hlt hlt' (congrArg Prod.snd hsame)

/-- The new nodes take the next ids. -/
theorem Walk.ids_perm (h : Walk P newId w key n s f f') : ∃ fresh : List Nat, fresh.Nodup ∧
    (∀ i ∈ fresh, newId ≤ i ∧ i < newId + fresh.length) ∧ (ids f').Perm (fresh ++ ids f) := by
  have hone : ∀ i ∈ [newId], newId ≤ i ∧ i < newId + [newId].length := by
    intro i hi
    rw [List.mem_singleton.mp hi]
    exact ⟨le_rfl, Nat.lt_succ_self _⟩
  induction h with
  | missing key => exact ⟨[], List.nodup_nil, fun i hi => (by cases hi), List.Perm.refl _⟩
  | added now key value =>
    refine ⟨[newId], List.nodup_singleton _, hone, ?_⟩
    simp [newLeaf]
  | @next w key n s childKey node below rest rest' _ _ ih =>
    obtain ⟨fresh, hnodup, hbound, hperm⟩ := ih
    refine ⟨fresh, hnodup, hbound, ?_⟩
    rw [ids_cons, ids_cons]
    refine List.Perm.trans ?_ List.perm_middle.symm
    refine List.Perm.cons _ ((hperm.append_left _).trans ?_)
    rw [← List.append_assoc, ← List.append_assoc]
    exact List.perm_append_comm.append_right _
  | whole now below rest _ =>
    exact ⟨[], List.nodup_nil, fun i hi => (by cases hi), by simp [TreeNode.touch]⟩
  | @deeper w key n s node now below below' rest _ _ _ ih =>
    obtain ⟨fresh, hnodup, hbound, hperm⟩ := ih
    refine ⟨fresh, hnodup, hbound, ?_⟩
    rw [ids_cons, ids_cons]
    refine List.Perm.trans ?_ List.perm_middle.symm
    rw [← List.append_assoc]
    exact (hperm.append_right _).cons _
  | split now below rest _ _ _ _ =>
    refine ⟨[newId], List.nodup_singleton _, hone, ?_⟩
    simp [splitNode, TreeNode.touch]
  | splitAdded now value below rest _ _ _ _ =>
    refine ⟨[newId, newId + 1], by simp, ?_, ?_⟩
    · intro i hi
      rcases List.mem_pair.mp hi with rfl | rfl
      · exact ⟨le_rfl, by simp⟩
      · exact ⟨Nat.le_succ _, by simp⟩
    · simp only [ids_cons, ids_nil, splitNode, TreeNode.touch, newLeaf, List.append_nil,
        List.cons_append, List.nil_append]
      refine List.Perm.cons _ (List.Perm.trans (List.Perm.cons _ ?_) (List.Perm.swap _ _ _))
      rw [List.append_assoc, List.singleton_append]
      exact List.perm_middle

/-- The lengths present and added add up, whatever a lock is worth. -/
theorem Walk.lockedSize_eq (weight : Int → Int) (h : Walk P newId w key n s f f') :
    lockedSize weight f' = lockedSize weight f +
      weight 0 * (if w.isSome then ((key.len - n : Nat) : Int) else 0) := by
  induction h with
  | missing key => simp
  | added now key value => simp [newLeaf]
  | next _ _ ih =>
    rw [lockedSize_cons, lockedSize_cons, ih]
    ring
  | whole now below rest _ => simp [TreeNode.touch]
  | @deeper w key n s node now below below' rest _ hlt _ ih =>
    rw [lockedSize_cons, lockedSize_cons, ih, len_drop, Option.isSome_map, Nat.sub_sub]
    simp only [TreeNode.touch]
    ring
  | @split w key n node now below rest hmatch _ hlt hend =>
    have hupper : (node.key.take n).len = n := len_take hlt.le
    have hlower := len_drop node.key n
    simp only [lockedSize_cons, lockedSize_nil, splitNode, TreeNode.touch, hupper, hlower,
      Nat.cast_sub hlt.le]
    rcases hend with rfl | rfl
    · simp
      ring
    · simp
      ring
  | @splitAdded key n node now value below rest hmatch _ hlt hlt' =>
    have hupper : (node.key.take n).len = n := len_take hlt.le
    have hlower := len_drop node.key n
    simp only [lockedSize_cons, lockedSize_nil, splitNode, TreeNode.touch, newLeaf, hupper, hlower,
      Nat.cast_sub hlt.le, len_drop, Option.isSome_some, if_true]
    ring

/-- The new nodes have the locks the old ones had; nobody holds a new node. -/
theorem Walk.locksCounted {holds : List Nat} (h : Walk P newId w key n s f f')
    (hlocks : LocksCounted holds f) (hheld : ∀ i ∈ holds, i < newId) : LocksCounted holds f' := by
  have hcount : ∀ {xs ys : List Nat}, (∀ i < newId, i ∈ xs ↔ i ∈ ys) →
      holds.countP (fun h => h ∈ xs) = holds.countP fun h => h ∈ ys := by
    intro xs ys hxy
    refine List.countP_congr fun i hi => ?_
    simpa using hxy i (hheld i hi)
  have hzero : ∀ i, newId ≤ i → holds.countP (fun h => h ∈ [i]) = 0 := by
    intro i hi
    rw [List.countP_eq_zero]
    intro j hj
    have := hheld j hj
    simp
    omega
  induction h with
  | missing key => trivial
  | added now key value =>
    refine ⟨?_, trivial, trivial⟩
    show (0 : Int) = ((holds.countP fun h => h ∈ [newId] : Nat) : Int)
    rw [hzero _ le_rfl]
    rfl
  | next _ _ ih => exact ⟨hlocks.1, hlocks.2.1, ih hlocks.2.2⟩
  | whole now below rest _ => exact ⟨hlocks.1, hlocks.2.1, hlocks.2.2⟩
  | @deeper w key n s node now below below' rest _ _ hwalk ih =>
    refine ⟨?_, ih hlocks.2.1, hlocks.2.2⟩
    obtain ⟨fresh, _, hbound, hperm⟩ := hwalk.ids_perm
    refine hlocks.1.trans (congrArg Nat.cast (hcount fun i hi => ?_))
    simp only [List.mem_cons, TreeNode.touch, hperm.mem_iff, List.mem_append]
    constructor
    · exact fun h => h.imp id .inr
    · rintro (h | h | h)
      · exact .inl h
      · have := (hbound i h).1
        omega
      · exact .inr h
  | split now below rest _ _ _ _ =>
    refine ⟨?_, ⟨hlocks.1, hlocks.2.1, trivial⟩, hlocks.2.2⟩
    refine hlocks.1.trans (congrArg Nat.cast (hcount fun i hi => ?_))
    have hne : i ≠ newId := by omega
    simp [splitNode, TreeNode.touch, hne]
  | splitAdded now value below rest _ _ _ _ =>
    refine ⟨?_, ⟨hlocks.1, hlocks.2.1, ?_, trivial, trivial⟩, hlocks.2.2⟩
    · refine hlocks.1.trans (congrArg Nat.cast (hcount fun i hi => ?_))
      have hne : i ≠ newId := by omega
      have hne' : i ≠ newId + 1 := by omega
      simp [splitNode, TreeNode.touch, newLeaf, hne, hne']
    · show (0 : Int) = ((holds.countP fun h => h ∈ [newId + 1] : Nat) : Int)
      rw [hzero _ (Nat.le_succ _)]
      rfl

end Walks

/-! ## What a tree stores -/

section Stores

variable {P : Nat} {f : Children Tok} {extraKey : Option String} {p : List Tok} {v : List Int}

theorem TreeStores.ne_nil_length (hshape : Shaped P f) (h : TreeStores f extraKey p v) :
    p ≠ [] ∧ v.length = p.length := by
  induction f generalizing p v with
  | nil => cases h
  | cons childKey node below rest ihb ihr =>
    obtain ⟨hnode, hnot, hbelow, hrest, hextra⟩ := hshape.cons
    rcases h with ⟨_, ⟨hne, hpre, rfl⟩ | ⟨p', v', rfl, rfl, hstored⟩⟩ | hstored
    · refine ⟨hne, ?_⟩
      have hlen := hpre.length_le
      have hvalued := hnode.valued
      rw [RadixKey.len] at hvalued
      rw [List.length_take]
      omega
    · obtain ⟨hne, hlen⟩ := ihb hbelow hstored
      refine ⟨by simp [hne], ?_⟩
      rw [List.length_append, List.length_append, hlen, hnode.valued, RadixKey.len]
    · exact ihr hrest hstored

/-- What is stored for whole pages is filed under the first of them. -/
theorem TreeStores.filed (hshape : Shaped P f) (halign : P ∣ p.length)
    (h : TreeStores f extraKey p v) : (extraKey, p.take P) ∈ f.keys := by
  have hpage : P ≤ p.length :=
    Nat.le_of_dvd (List.length_pos_of_ne_nil (h.ne_nil_length hshape).1) halign
  induction f with
  | nil => cases h
  | cons childKey node below rest _ ihr =>
    obtain ⟨hnode, hnot, hbelow, hrest, hextra⟩ := hshape.cons
    have hnodePage : P ≤ node.key.tokenIds.length :=
      Nat.le_of_dvd (List.length_pos_of_ne_nil hnode.nonempty) hnode.aligned
    have hhead : node.key.extraKey = extraKey → p.take P = node.key.tokenIds.take P →
        (extraKey, p.take P) = childKey := by
      intro heq htake
      rw [hnode.filed, getChildKey, heq, htake]
    rcases h with ⟨heq, ⟨_, ⟨t, ht⟩, _⟩ | ⟨p', v', rfl, _, _⟩⟩ | hstored
    · refine List.mem_cons.mpr (.inl (hhead heq ?_))
      rw [← ht, List.take_append_of_le_length hpage]
    · refine List.mem_cons.mpr (.inl (hhead heq ?_))
      rw [List.take_append_of_le_length hnodePage]
    · exact List.mem_cons_of_mem _ (ihr hrest hstored)

/-- Where the first page is that of an entry, nothing is stored in the entries after it. -/
theorem TreeStores.not_rest {childKey : ChildKey Tok} {node : TreeNode Tok}
    {below rest : Children Tok} (hshape : Shaped P (.cons childKey node below rest))
    (halign : P ∣ p.length) (hsame : childKey = (extraKey, p.take P)) :
    ¬ TreeStores rest extraKey p v := by
  intro h
  obtain ⟨_, hnot, _, hrest, _⟩ := hshape.cons
  exact hnot (hsame ▸ h.filed hrest halign)

/-- The tree stores one list of slots for whole pages. -/
theorem TreeStores.unique (hshape : Shaped P f) (halign : P ∣ p.length) {v' : List Int}
    (h : TreeStores f extraKey p v) (h' : TreeStores f extraKey p v') : v = v' := by
  induction f generalizing p v v' with
  | nil => cases h
  | cons childKey node below rest ihb ihr =>
    obtain ⟨hnode, hnot, hbelow, hrest, hextra⟩ := hshape.cons
    -- an entry that stores `p` is filed under its first page
    have hsame : ∀ {u : List Int}, (node.key.extraKey = extraKey ∧
        ((p ≠ [] ∧ p <+: node.key.tokenIds ∧ u = node.value.take p.length) ∨
          ∃ p' v', p = node.key.tokenIds ++ p' ∧ u = node.value ++ v' ∧ TreeStores below extraKey p' v')) →
        childKey = (extraKey, p.take P) := by
      intro u hu
      have hsingle : Shaped P (.cons childKey node below .nil) :=
        shaped_cons hnode List.not_mem_nil hbelow (shaped_nil P) hextra
      have hfiled := TreeStores.filed (f := .cons childKey node below .nil) hsingle halign (.inl hu)
      exact (List.mem_singleton.mp hfiled).symm
    rcases h with h | h <;> rcases h' with h' | h'
    · obtain ⟨_, ⟨_, hpre, rfl⟩ | ⟨p1, v1, rfl, rfl, h1⟩⟩ := h <;>
        obtain ⟨_, ⟨_, hpre', rfl⟩ | ⟨p2, v2, hp2, rfl, h2⟩⟩ := h'
      · rfl
      · have := (h2.ne_nil_length hbelow).1
        have hle := hpre.length_le
        rw [hp2, List.length_append] at hle
        exact absurd (List.eq_nil_of_length_eq_zero (by omega)) this
      · have := (h1.ne_nil_length hbelow).1
        have hle := hpre'.length_le
        rw [List.length_append] at hle
        exact absurd (List.eq_nil_of_length_eq_zero (by omega)) this
      · have hp := List.append_cancel_left hp2
        subst hp
        have halign' : P ∣ p1.length := by
          rw [List.length_append] at halign
          exact (Nat.dvd_add_right hnode.aligned).mp halign
        rw [ihb hbelow halign' h1 h2]
    · exact absurd h' (TreeStores.not_rest hshape halign (hsame h))
    · exact absurd h (TreeStores.not_rest hshape halign (hsame h'))
    · exact ihr hrest halign h h'

/-- Splitting a node changes nothing that is stored; a new entry beside the lower half stores what
it has behind the upper one. -/
theorem stored_split {childKey lowerKey : ChildKey Tok} {node : TreeNode Tok} {below added rest : Children Tok}
    {newId n : Nat} {now : Int} (hlt : n < node.key.len)
    (hvalued : node.value.length = node.key.len) :
    TreeStores (.cons childKey (splitNode now newId (node.touch now) n).1
      (.cons lowerKey (splitNode now newId (node.touch now) n).2 below added) rest) extraKey p v ↔
    TreeStores (.cons childKey node below rest) extraKey p v ∨
      (node.key.extraKey = extraKey ∧ ∃ p' v', p = node.key.tokenIds.take n ++ p' ∧
        v = node.value.take n ++ v' ∧ TreeStores added extraKey p' v') := by
  have hlt' : n < node.key.tokenIds.length := hlt
  have hlen : node.value.length = node.key.tokenIds.length := hvalued
  have htokens : node.key.tokenIds.take n ++ node.key.tokenIds.drop n = node.key.tokenIds :=
    List.take_append_drop _ _
  have hslots : node.value.take n ++ node.value.drop n = node.value := List.take_append_drop _ _
  have htake : (node.key.tokenIds.take n).length = n := List.length_take_of_le hlt'.le
  have htakeV : (node.value.take n).length = n := List.length_take_of_le (by omega)
  simp only [TreeStores, splitNode, TreeNode.touch, RadixKey.take, RadixKey.drop]
  constructor
  · rintro (⟨heq, ⟨hne, hpre, rfl⟩ | ⟨p', v', rfl, rfl, hlower⟩⟩ | hrest)
    · refine .inl (.inl ⟨heq, .inl ⟨hne, hpre.trans (List.take_prefix _ _), ?_⟩⟩)
      have := hpre.length_le
      rw [List.take_take, Nat.min_eq_left (by omega)]
    · rcases hlower with ⟨_, ⟨hne, ⟨t, ht⟩, rfl⟩ | ⟨p'', v'', rfl, rfl, hbelow⟩⟩ | hadded
      · refine .inl (.inl ⟨heq, .inl ⟨by simp [hne], ⟨t, ?_⟩, ?_⟩⟩)
        · rw [List.append_assoc, ht, htokens]
        · rw [List.length_append, htake]
          conv_rhs => rw [← hslots]
          rw [List.take_append, htakeV, Nat.add_sub_cancel_left,
            List.take_of_length_le (l := node.value.take n) (by omega)]
      · refine .inl (.inl ⟨heq, .inr ⟨p'', v'', ?_, ?_, hbelow⟩⟩)
        · rw [← List.append_assoc, htokens]
        · rw [← List.append_assoc, hslots]
      · exact .inr ⟨heq, p', v', rfl, rfl, hadded⟩
    · exact .inl (.inr hrest)
  · rintro ((⟨heq, ⟨hne, hpre, rfl⟩ | ⟨p', v', rfl, rfl, hbelow⟩⟩ | hrest) | ⟨heq, p', v', rfl, rfl, hadded⟩)
    · by_cases hshort : p.length ≤ n
      · refine .inl ⟨heq, .inl ⟨hne, ?_, ?_⟩⟩
        · exact List.prefix_of_prefix_length_le hpre (List.take_prefix _ _) (by omega)
        · rw [List.take_take, Nat.min_eq_left hshort]
      · obtain ⟨t, ht⟩ := hpre
        have hsplit : p.take n ++ p.drop n = p := List.take_append_drop _ _
        have hhead : p.take n = node.key.tokenIds.take n := by
          rw [← ht, List.take_append_of_le_length (by omega)]
        refine .inl ⟨heq, .inr ⟨p.drop n, (node.value.drop n).take (p.drop n).length, ?_, ?_,
          .inl ⟨heq, .inl ⟨?_, ⟨t, ?_⟩, rfl⟩⟩⟩⟩
        · rw [← hhead, hsplit]
        · rw [List.length_drop]
          conv_lhs => rw [← hslots]
          rw [List.take_append, htakeV, List.take_of_length_le (l := node.value.take n) (by omega)]
        · rw [Ne, List.drop_eq_nil_iff]
          omega
        · rw [← ht, List.drop_append_of_le_length (by omega)]
    · refine .inl ⟨heq, .inr ⟨node.key.tokenIds.drop n ++ p', node.value.drop n ++ v', ?_, ?_,
        .inl ⟨heq, .inr ⟨p', v', rfl, rfl, hbelow⟩⟩⟩⟩
      · rw [← List.append_assoc, htokens]
      · rw [← List.append_assoc, hslots]
    · exact .inr hrest
    · exact .inl ⟨heq, .inr ⟨p', v', rfl, rfl, .inr hadded⟩⟩

end Stores

section WalkStores

variable {P newId n : Nat} {w : Option (List Int)} {key : RadixKey Tok} {s : List Int} {f f' : Children Tok}

/-- What a walk has found: whole pages of the key, stored with these slots, and no more are. -/
structure WalkFound (P : Nat) (key : RadixKey Tok) (n : Nat) (s : List Int) (f : Children Tok) : Prop where
  aligned : P ∣ n
  le : n ≤ key.len
  length : s.length = n
  stored : 0 < n → TreeStores f key.extraKey (key.tokenIds.take n) s
  longest : ∀ p v, TreeStores f key.extraKey p v → P ∣ p.length → p <+: key.tokenIds → p.length ≤ n

theorem take_prefix_page {p t : List Tok} (hne : p ≠ []) (halign : P ∣ p.length)
    (hpre : p <+: t) : p.take P = t.take P := by
  obtain ⟨u, rfl⟩ := hpre
  rw [List.take_append_of_le_length (Nat.le_of_dvd (List.length_pos_of_ne_nil hne) halign)]

/-- A walk that stops inside a node has found the pages up to there. -/
theorem walk_found_split {node : TreeNode Tok} {below rest : Children Tok}
    (hshape : Shaped P (.cons (getChildKey P key) node below rest))
    (hmatch : Matches P n node.key.tokenIds key.tokenIds) (hpos : 0 < n) (hlt : n < node.key.len) :
    WalkFound P key n (node.value.take n) (.cons (getChildKey P key) node below rest) := by
  obtain ⟨hnode, hnot, hbelow, hrest, hextra⟩ := hshape.cons
  have hvalued := hnode.valued
  have hright := hmatch.right
  have hlt' : n < node.key.tokenIds.length := hlt
  refine ⟨hmatch.aligned, hright, List.length_take_of_le (by omega), fun _ => ?_, ?_⟩
  · refine .inl ⟨extraKey_of_filed hnode rfl, .inl ⟨?_, ?_, ?_⟩⟩
    · rw [← hmatch.agree, Ne, List.take_eq_nil_iff, not_or]
      exact ⟨by omega, hnode.nonempty⟩
    · rw [← hmatch.agree]
      exact List.take_prefix _ _
    · rw [List.length_take_of_le hright]
  · intro p v hstored hp hpkey
    rcases hstored with ⟨_, ⟨_, hpnode, _⟩ | ⟨p', v', rfl, _, hstored⟩⟩ | hstored
    · exact hmatch.longest hp hpnode hpkey
    · exact absurd (hmatch.longest hnode.aligned (List.prefix_refl _)
        ((List.prefix_append _ _).trans hpkey)) (by omega)
    · have hpne := (hstored.ne_nil_length hrest).1
      refine absurd hstored (TreeStores.not_rest hshape hp ?_)
      rw [getChildKey, take_prefix_page hpne hp hpkey]

theorem Walk.found (h : Walk P newId w key n s f f') (hshape : Shaped P f)
    (hkey : key.tokenIds ≠ []) (halign : P ∣ key.len) : WalkFound P key n s f := by
  induction h with
  | missing key => exact ⟨dvd_zero _, Nat.zero_le _, rfl, fun h => absurd h (lt_irrefl 0), fun _ _ h => h.elim⟩
  | added now key value =>
    exact ⟨dvd_zero _, Nat.zero_le _, rfl, fun h => absurd h (lt_irrefl 0), fun _ _ h => h.elim⟩
  | @next w key n s childKey node below rest rest' hne _ ih =>
    obtain ⟨hnode, hnot, hbelow, hrest, hextra⟩ := hshape.cons
    have hfound := ih hrest hkey halign
    refine ⟨hfound.aligned, hfound.le, hfound.length, fun hpos => .inr (hfound.stored hpos), ?_⟩
    intro p v hstored hp hpre
    rcases hstored with hhead | hstored
    · -- the entry is filed under another page than the key's first
      have hsingle : Shaped P (.cons childKey node below .nil) :=
        shaped_cons hnode List.not_mem_nil hbelow (shaped_nil P) hextra
      have hhere : TreeStores (.cons childKey node below .nil) key.extraKey p v := .inl hhead
      have hfiled := hhere.filed hsingle hp
      have hpne := (hhere.ne_nil_length hsingle).1
      rw [take_prefix_page hpne hp hpre] at hfiled
      exact absurd (List.mem_singleton.mp hfiled).symm hne
    · exact hfound.longest p v hstored hp hpre
  | @whole w key node now below rest heq =>
    obtain ⟨hnode, hnot, hbelow, hrest, hextra⟩ := hshape.cons
    have hlen : node.key.len = key.len := congrArg List.length heq
    refine ⟨halign, le_rfl, hnode.valued.trans hlen, fun _ => ?_, fun p v _ _ hpre => hpre.length_le⟩
    refine .inl ⟨extraKey_of_filed hnode rfl, .inl ⟨?_, ?_, ?_⟩⟩
    · rw [RadixKey.len, List.take_length]
      exact hkey
    · rw [RadixKey.len, List.take_length, heq]
    · rw [RadixKey.len, List.take_length, List.take_of_length_le]
      rw [hnode.valued, hlen, RadixKey.len]
  | @deeper w key n s node now below below' rest hpre hlt _ ih =>
    obtain ⟨hnode, hnot, hbelow, hrest, hextra⟩ := hshape.cons
    have hnamespace := extraKey_of_filed hnode rfl
    have hfound := ih hbelow (by rw [Ne, drop_ne_nil_iff]; omega) (dvd_len_drop halign hnode.aligned)
    have hle := hfound.le
    rw [len_drop] at hle
    have htake : key.tokenIds.take node.key.len = node.key.tokenIds :=
      (List.prefix_iff_eq_take.mp hpre).symm
    refine ⟨(Nat.dvd_add_right hnode.aligned).mpr hfound.aligned, by omega, ?_, fun _ => ?_, ?_⟩
    · rw [List.length_append, hnode.valued, hfound.length]
    · rcases Nat.eq_zero_or_pos n with hzero | hpos
      · have hs : s = [] := List.eq_nil_of_length_eq_zero (hfound.length.trans hzero)
        subst hzero
        rw [Nat.add_zero, htake, hs, List.append_nil]
        refine .inl ⟨hnamespace, .inl ⟨hnode.nonempty, List.prefix_refl _, ?_⟩⟩
        rw [List.take_of_length_le]
        exact hnode.valued.le
      · refine .inl ⟨hnamespace, .inr ⟨_, s, ?_, rfl, hfound.stored hpos⟩⟩
        rw [List.take_add, htake]
        rfl
    · intro p v hstored hp hpkey
      rcases hstored with ⟨_, ⟨_, hpnode, _⟩ | ⟨p', v', rfl, _, hstored⟩⟩ | hstored
      · have := hpnode.length_le
        rw [← RadixKey.len] at this
        omega
      · rw [List.length_append] at hp ⊢
        have hrec := hfound.longest p' v' hstored ((Nat.dvd_add_right hnode.aligned).mp hp) (by
          show p' <+: key.tokenIds.drop node.key.len
          obtain ⟨t, ht⟩ := hpkey
          refine ⟨t, ?_⟩
          rw [← ht, List.append_assoc, RadixKey.len, List.drop_left])
        rw [← RadixKey.len]
        omega
      · have hpne := (hstored.ne_nil_length hrest).1
        refine absurd hstored (TreeStores.not_rest hshape hp ?_)
        rw [getChildKey, take_prefix_page hpne hp hpkey]
  | @split w key n node now below rest hmatch hpos hlt _ =>
    exact walk_found_split hshape hmatch hpos hlt
  | @splitAdded key n node now value below rest hmatch hpos hlt _ =>
    exact walk_found_split hshape hmatch hpos hlt

theorem take_append_past {xs ys : List Int} {a m : Nat} (h : xs.length = a) :
    (xs ++ ys).take (a + m) = xs ++ ys.take m := by
  subst h
  exact List.take_length_add_append _

/-- What the tree stores afterwards: what it stored, and the longer prefixes of an inserted key with
the slots found and then the values. -/
theorem Walk.stored_iff (h : Walk P newId w key n s f f') (hshape : Shaped P f)
    (hkey : key.tokenIds ≠ []) (halign : P ∣ key.len) (extraKey : Option String) (p : List Tok)
    (v : List Int) : TreeStores f' extraKey p v ↔ TreeStores f extraKey p v ∨
      ∃ value, w = some value ∧ extraKey = key.extraKey ∧ p <+: key.tokenIds ∧ n < p.length ∧
        v = (s ++ value.drop n).take p.length := by
  induction h generalizing p v with
  | missing key => simp [TreeStores]
  | added now key value =>
    simp only [TreeStores, newLeaf, List.nil_append, List.drop_zero, false_or, or_false, and_false,
      exists_false, Option.some.injEq, exists_eq_left']
    constructor
    · rintro ⟨rfl, hne, hpre, rfl⟩
      exact ⟨rfl, hpre, List.length_pos_of_ne_nil hne, rfl⟩
    · rintro ⟨rfl, hpre, hpos, rfl⟩
      exact ⟨rfl, List.ne_nil_of_length_pos hpos, hpre, rfl⟩
  | @next w key n s childKey node below rest rest' _ _ ih =>
    obtain ⟨_, _, _, hrest, _⟩ := hshape.cons
    rw [TreeStores, TreeStores, ih hrest hkey halign, or_assoc]
  | @whole w key node now below rest heq =>
    simp only [TreeStores, TreeNode.touch]
    refine (or_iff_left ?_).symm
    rintro ⟨value, _, _, hpre, hlt, _⟩
    exact absurd hpre.length_le (Nat.not_le.mpr hlt)
  | @deeper w key n s node now below below' rest hpre hlt _ ih =>
    obtain ⟨hnode, hnot, hbelow, hrest, hextra⟩ := hshape.cons
    have hnamespace := extraKey_of_filed hnode rfl
    have hrec := ih hbelow (by rw [Ne, drop_ne_nil_iff]; omega) (dvd_len_drop halign hnode.aligned)
    have hlen : node.value.length = node.key.tokenIds.length := hnode.valued
    have hkeySplit : node.key.tokenIds ++ (key.drop node.key.len).tokenIds = key.tokenIds := by
      obtain ⟨t, ht⟩ := hpre
      rw [RadixKey.drop, ← ht, RadixKey.len, List.drop_left]
    simp only [TreeStores, TreeNode.touch, hrec]
    constructor
    · rintro (⟨heq, hhead | ⟨p', v', rfl, rfl, hstored | hnew⟩⟩ | hstored)
      · exact .inl (.inl ⟨heq, .inl hhead⟩)
      · exact .inl (.inl ⟨heq, .inr ⟨p', v', rfl, rfl, hstored⟩⟩)
      · obtain ⟨value', hvalue, _, hp', hlt', rfl⟩ := hnew
        obtain ⟨value, rfl, rfl⟩ := Option.map_eq_some_iff.mp hvalue
        refine .inr ⟨value, rfl, heq.symm.trans hnamespace, ?_, ?_, ?_⟩
        · rw [← hkeySplit]
          exact (List.prefix_append_right_inj _).mpr hp'
        · rw [List.length_append, ← RadixKey.len]
          omega
        · rw [List.length_append, List.append_assoc, take_append_past hlen, List.drop_drop]
      · exact .inl (.inr hstored)
    · rintro ((⟨heq, hhead | ⟨p', v', rfl, rfl, hstored⟩⟩ | hstored) | ⟨value, rfl, rfl, hp, hlt', rfl⟩)
      · exact .inl ⟨heq, .inl hhead⟩
      · exact .inl ⟨heq, .inr ⟨p', v', rfl, rfl, .inl hstored⟩⟩
      · exact .inr hstored
      · obtain ⟨p', rfl⟩ : node.key.tokenIds <+: p :=
          List.prefix_of_prefix_length_le hpre hp (by rw [← RadixKey.len]; omega)
        refine .inl ⟨hnamespace, .inr ⟨p', (s ++ (value.drop node.key.len).drop n).take p'.length, rfl, ?_,
          .inr ⟨_, rfl, rfl, ?_, ?_, rfl⟩⟩⟩
        · rw [List.length_append, List.append_assoc, take_append_past hlen, List.drop_drop]
        · rw [← hkeySplit] at hp
          exact (List.prefix_append_right_inj _).mp hp
        · rw [List.length_append, ← RadixKey.len] at hlt'
          omega
  | @split w key n node now below rest hmatch hpos hlt hend =>
    obtain ⟨hnode, hnot, hbelow, hrest, hextra⟩ := hshape.cons
    rw [stored_split hlt hnode.valued]
    simp only [TreeStores, and_false, exists_false, or_false]
    refine (or_iff_left ?_).symm
    rintro ⟨value, rfl, _, hpre, hlt', _⟩
    rcases hend with hend | hend
    · cases hend
    · have := hpre.length_le
      rw [← RadixKey.len] at this
      omega
  | @splitAdded key n node now value below rest hmatch hpos hlt hlt' =>
    obtain ⟨hnode, hnot, hbelow, hrest, hextra⟩ := hshape.cons
    have hnamespace := extraKey_of_filed hnode rfl
    have htakeV : (node.value.take n).length = n :=
      List.length_take_of_le (by rw [hnode.valued]; exact hlt.le)
    have hkeySplit : node.key.tokenIds.take n ++ key.tokenIds.drop n = key.tokenIds := by
      rw [hmatch.agree, List.take_append_drop]
    have htake : (node.key.tokenIds.take n).length = n := List.length_take_of_le hmatch.left
    rw [stored_split hlt hnode.valued]
    refine or_congr Iff.rfl ?_
    simp only [TreeStores, newLeaf, RadixKey.drop, and_false, exists_false, or_false, Option.some.injEq,
      exists_eq_left']
    constructor
    · rintro ⟨heq, p', v', rfl, rfl, _, hne, hp', rfl⟩
      refine ⟨heq.symm.trans hnamespace, ?_, ?_, ?_⟩
      · rw [← hkeySplit]
        exact (List.prefix_append_right_inj _).mpr hp'
      · have := List.length_pos_of_ne_nil hne
        rw [List.length_append, htake]
        omega
      · rw [List.length_append, htake, take_append_past htakeV]
    · rintro ⟨rfl, hp, hlong, rfl⟩
      have hhead : node.key.tokenIds.take n <+: key.tokenIds := ⟨_, hkeySplit⟩
      obtain ⟨p', rfl⟩ : node.key.tokenIds.take n <+: p :=
        List.prefix_of_prefix_length_le hhead hp (by omega)
      rw [List.length_append, htake] at hlong
      refine ⟨hnamespace, p', (value.drop n).take p'.length, rfl, ?_, rfl,
        List.ne_nil_of_length_pos (by omega), ?_, rfl⟩
      · rw [List.length_append, htake, take_append_past htakeV]
      · rw [← hkeySplit] at hp
        exact (List.prefix_append_right_inj _).mp hp

end WalkStores

end QCFuse.Guarantees
