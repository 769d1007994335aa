import Mathlib.Data.List.Perm.Basic
import Mathlib.Data.List.Nodup
import Mathlib.Algebra.BigOperators.Group.List.Basic
import Mathlib.Tactic.Linarith

/-!
# Forests of dictionaries

The nodes below a root: an entry of a dictionary of children holds a node's data, its own
dictionary of children and the entries after it. A predicate on data tells the nodes apart.
-/

set_option autoImplicit false

namespace QCFuse.Library

inductive Forest (K D : Type) where
  | nil
  | cons (key : K) (data : D) (children rest : Forest K D)
  deriving DecidableEq

namespace Forest

variable {K D : Type}

def isNil : Forest K D → Bool
  | nil => true
  | cons .. => false

/-- The keys of the dictionary. -/
def keys : Forest K D → List K
  | nil => []
  | cons key _ _ rest => key :: rest.keys

/-- The nodes in the dictionary. -/
def roots : Forest K D → List D
  | nil => []
  | cons _ data _ rest => data :: rest.roots

/-- All nodes. -/
def nodes : Forest K D → List D
  | nil => []
  | cons _ data children rest => data :: (children.nodes ++ rest.nodes)

/-- The nodes without children. -/
def leaves : Forest K D → List D
  | nil => []
  | cons _ data children rest =>
    (if children.isNil then [data] else []) ++ (children.leaves ++ rest.leaves)

/-- `g` on every node that is hit or lies above a hit one. -/
def mapPath (hit : D → Bool) (g : D → D) : Forest K D → Forest K D
  | nil => nil
  | cons key data children rest =>
    cons key (if hit data || children.nodes.any hit then g data else data)
      (children.mapPath hit g) (rest.mapPath hit g)

/-- The nodes that are hit or lie above a hit one. -/
def pathNodes (hit : D → Bool) : Forest K D → List D
  | nil => []
  | cons _ data children rest =>
    (if hit data || children.nodes.any hit then [data] else []) ++
      (children.pathNodes hit ++ rest.pathNodes hit)

/-- Deletes the first entry hit from its dictionary. -/
def erase (hit : D → Bool) : Forest K D → Forest K D
  | nil => nil
  | cons key data children rest =>
    if hit data then rest else cons key data (children.erase hit) (rest.erase hit)

/-- Whether the dictionary holds one node, and that is hit. -/
def onlyHit (hit : D → Bool) : Forest K D → Bool
  | cons _ data _ nil => hit data
  | _ => false

/-- The node whose only child is hit. -/
def onlyChildOf (hit : D → Bool) : Forest K D → Option D
  | nil => none
  | cons _ data children rest =>
    if children.onlyHit hit then some data
    else (children.onlyChildOf hit).or (rest.onlyChildOf hit)

/-- `p` of every entry: its key, its node and its children. -/
def Forall (p : K → D → Forest K D → Prop) : Forest K D → Prop
  | nil => True
  | cons key data children rest => p key data children ∧ children.Forall p ∧ rest.Forall p

/-- The nodes in the dictionary, each with its children. -/
def entries : Forest K D → List (D × Forest K D)
  | nil => []
  | cons _ data children rest => (data, children) :: rest.entries

/-- The node, with its children, lies below the dictionary. -/
inductive Under : Forest K D → D × Forest K D → Prop where
  | child {f : Forest K D} {e : D × Forest K D} (h : e ∈ f.entries) : Under f e
  | deeper {f : Forest K D} {e e' : D × Forest K D} (h : e ∈ f.entries) (h' : Under e.2 e') : Under f e'

/-- The list goes down from a node of the dictionary, each time to a child. -/
inductive Branch : Forest K D → List D → Prop where
  | nil (f : Forest K D) : Branch f []
  | here {key : K} {data : D} {children : Forest K D} (rest : Forest K D) {path : List D}
      (h : Branch children path) : Branch (cons key data children rest) (data :: path)
  | later (key : K) (data : D) (children : Forest K D) {rest : Forest K D} {path : List D}
      (h : Branch rest path) : Branch (cons key data children rest) path

/-! ## Entries and nodes -/

theorem roots_subset_nodes (f : Forest K D) : ∀ d ∈ f.roots, d ∈ f.nodes := by
  induction f with
  | nil => exact fun _ h => h
  | cons key data children rest _ ih =>
    intro d hd
    rcases List.mem_cons.mp hd with rfl | hd
    · exact List.mem_cons_self
    · exact List.mem_cons_of_mem _ (List.mem_append_right _ (ih d hd))

theorem leaves_subset_nodes (f : Forest K D) : ∀ d ∈ f.leaves, d ∈ f.nodes := by
  induction f with
  | nil => exact fun _ h => h
  | cons key data children rest ihc ihr =>
    intro d hd
    rw [leaves, List.mem_append, List.mem_append] at hd
    rcases hd with hd | hd | hd
    · split at hd
      · rw [List.mem_singleton.mp hd]
        exact List.mem_cons_self
      · cases hd
    · exact List.mem_cons_of_mem _ (List.mem_append_left _ (ihc d hd))
    · exact List.mem_cons_of_mem _ (List.mem_append_right _ (ihr d hd))

theorem Under.trans {f : Forest K D} {e e' : D × Forest K D} (h : Under f e) (h' : Under e.2 e') :
    Under f e' := by
  induction h with
  | child h => exact .deeper h h'
  | deeper h _ ih => exact .deeper h (ih h')

theorem nodes_eq_entries (f : Forest K D) : f.nodes = f.entries.flatMap fun e => e.1 :: e.2.nodes := by
  induction f with
  | nil => rfl
  | cons key data children rest _ ihr => rw [nodes, entries, List.flatMap_cons, ← ihr]; rfl

theorem under_cons {key : K} {data : D} {children rest : Forest K D} {e : D × Forest K D}
    (h : Under (cons key data children rest) e) :
    e = (data, children) ∨ Under children e ∨ Under rest e := by
  cases h with
  | child h =>
    rcases List.mem_cons.mp h with rfl | h
    · exact .inl rfl
    · exact .inr (.inr (.child h))
  | deeper h h' =>
    rcases List.mem_cons.mp h with rfl | h
    · exact .inr (.inl h')
    · exact .inr (.inr (.deeper h h'))

theorem Under.subset {f : Forest K D} {e : D × Forest K D} (h : Under f e) :
    ∀ d ∈ e.1 :: e.2.nodes, d ∈ f.nodes := by
  have hentry : ∀ {f : Forest K D} {e : D × Forest K D}, e ∈ f.entries →
      ∀ d ∈ e.1 :: e.2.nodes, d ∈ f.nodes := by
    intro f e he d hd
    rw [nodes_eq_entries]
    exact List.mem_flatMap.mpr ⟨e, he, hd⟩
  induction h with
  | child h => exact hentry h
  | deeper h _ ih => exact fun d hd => hentry h d (List.mem_cons_of_mem _ (ih d hd))

theorem Forall.imp {p q : K → D → Forest K D → Prop}
    (h : ∀ key data children, p key data children → q key data children) {f : Forest K D}
    (hf : f.Forall p) : f.Forall q := by
  induction f with
  | nil => trivial
  | cons key data children rest ihc ihr => exact ⟨h _ _ _ hf.1, ihc hf.2.1, ihr hf.2.2⟩

theorem Forall.and {p q : K → D → Forest K D → Prop} {f : Forest K D} (hp : f.Forall p)
    (hq : f.Forall q) : f.Forall fun key data children => p key data children ∧ q key data children := by
  induction f with
  | nil => trivial
  | cons key data children rest ihc ihr =>
    exact ⟨⟨hp.1, hq.1⟩, ihc hp.2.1 hq.2.1, ihr hp.2.2 hq.2.2⟩

/-- A property of every node is one of every entry, whatever its key and children. -/
theorem Forall.node {p : D → Prop} {f : Forest K D} (h : f.Forall fun _ data _ => p data) :
    ∀ d ∈ f.nodes, p d := by
  induction f with
  | nil => exact fun _ hd => by cases hd
  | cons key data children rest ihc ihr =>
    intro d hd
    rcases List.mem_cons.mp hd with rfl | hd
    · exact h.1
    · rcases List.mem_append.mp hd with hd | hd
      · exact ihc h.2.1 d hd
      · exact ihr h.2.2 d hd

theorem forall_node {p : D → Prop} {f : Forest K D} (h : ∀ d ∈ f.nodes, p d) :
    f.Forall fun _ data _ => p data := by
  induction f with
  | nil => trivial
  | cons key data children rest ihc ihr =>
    exact ⟨h _ List.mem_cons_self,
      ihc fun d hd => h d (List.mem_cons_of_mem _ (List.mem_append_left _ hd)),
      ihr fun d hd => h d (List.mem_cons_of_mem _ (List.mem_append_right _ hd))⟩

/-- Below a node that has a property passed on to its children lies a leaf that has it. -/
theorem exists_leaf_of {p : D → Prop} {f : Forest K D}
    (hdown : f.Forall fun _ data children => p data → ∀ c ∈ children.roots, p c) {d : D}
    (hd : d ∈ f.nodes) (hp : p d) : ∃ leaf ∈ f.leaves, p leaf := by
  induction f generalizing d with
  | nil => cases hd
  | cons key data children rest ihc ihr =>
    obtain ⟨hhere, hchildren, hrest⟩ := hdown
    rcases List.mem_cons.mp hd with rfl | hd
    · cases children with
      | nil => exact ⟨d, by simp [leaves, isNil], hp⟩
      | cons key' child children' rest' =>
        obtain ⟨leaf, hleaf, hpleaf⟩ := ihc hchildren List.mem_cons_self
          (hhere hp child List.mem_cons_self)
        exact ⟨leaf, List.mem_append_right _ (List.mem_append_left _ hleaf), hpleaf⟩
    · rcases List.mem_append.mp hd with hd | hd
      · obtain ⟨leaf, hleaf, hpleaf⟩ := ihc hchildren hd hp
        exact ⟨leaf, List.mem_append_right _ (List.mem_append_left _ hleaf), hpleaf⟩
      · obtain ⟨leaf, hleaf, hpleaf⟩ := ihr hrest hd hp
        exact ⟨leaf, List.mem_append_right _ (List.mem_append_right _ hleaf), hpleaf⟩

/-! ## Changing the nodes of a path -/

section Path

variable (hit : D → Bool) (g : D → D)

@[simp] theorem keys_mapPath (f : Forest K D) : (f.mapPath hit g).keys = f.keys := by
  induction f with
  | nil => rfl
  | cons key data children rest _ ih => rw [mapPath, keys, keys, ih]

@[simp] theorem isNil_mapPath (f : Forest K D) : (f.mapPath hit g).isNil = f.isNil := by
  cases f <;> rfl

/-- What `g` keeps, a change of a path keeps on every node. -/
theorem map_nodes_mapPath {β : Type} {w : D → β} (hw : ∀ d, w (g d) = w d) (f : Forest K D) :
    (f.mapPath hit g).nodes.map w = f.nodes.map w := by
  induction f with
  | nil => rfl
  | cons key data children rest ihc ihr =>
    rw [mapPath, nodes, nodes, List.map_cons, List.map_append, ihc, ihr, List.map_cons, List.map_append]
    split
    · rw [hw]
    · rfl

theorem map_roots_mapPath {β : Type} {w : D → β} (hw : ∀ d, w (g d) = w d) (f : Forest K D) :
    (f.mapPath hit g).roots.map w = f.roots.map w := by
  induction f with
  | nil => rfl
  | cons key data children rest _ ihr =>
    rw [mapPath, roots, roots, List.map_cons, List.map_cons, ihr]
    split
    · rw [hw]
    · rfl

/-- The nodes are those of the path, changed, and the others, as they were. -/
theorem mapPath_perm (f : Forest K D) : ∃ others,
    f.nodes.Perm (f.pathNodes hit ++ others) ∧
      (f.mapPath hit g).nodes.Perm ((f.pathNodes hit).map g ++ others) := by
  induction f with
  | nil => exact ⟨[], List.Perm.refl _, List.Perm.refl _⟩
  | cons key data children rest ihc ihr =>
    obtain ⟨oc, hc, hc'⟩ := ihc
    obtain ⟨or, hr, hr'⟩ := ihr
    have hswap : ∀ a b : List D, (a ++ oc ++ (b ++ or)).Perm (a ++ b ++ (oc ++ or)) := by
      intro a b
      rw [List.append_assoc, List.append_assoc]
      refine List.Perm.append_left a ?_
      rw [← List.append_assoc, ← List.append_assoc]
      exact List.Perm.append_right or List.perm_append_comm
    have hbelow := (hc.append hr).trans (hswap _ _)
    have hbelow' := (hc'.append hr').trans (hswap _ _)
    by_cases h : (hit data || children.nodes.any hit) = true
    · refine ⟨oc ++ or, ?_, ?_⟩
      · rw [nodes, pathNodes, if_pos h]
        exact hbelow.cons data
      · rw [mapPath, nodes, pathNodes, if_pos h, if_pos h, List.map_append, List.map_append]
        exact hbelow'.cons (g data)
    · refine ⟨data :: (oc ++ or), ?_, ?_⟩
      · rw [nodes, pathNodes, if_neg h]
        exact (hbelow.cons data).trans List.perm_middle.symm
      · rw [mapPath, nodes, pathNodes, if_neg h, if_neg h, List.nil_append, List.map_append]
        exact (hbelow'.cons data).trans List.perm_middle.symm

/-- What holds of every entry holds of those on the path, and the path leads to a hit node. -/
theorem Forall.pathNodes {p : K → D → Forest K D → Prop} {f : Forest K D} (hf : f.Forall p) {d : D}
    (hd : d ∈ f.pathNodes hit) :
    ∃ key children, p key d children ∧ (hit d || children.nodes.any hit) = true := by
  induction f with
  | nil => cases hd
  | cons key data children rest ihc ihr =>
    rw [Forest.pathNodes, List.mem_append, List.mem_append] at hd
    rcases hd with hd | hd | hd
    · split at hd
      next h =>
        rw [List.mem_singleton.mp hd]
        exact ⟨key, children, hf.1, h⟩
      next => cases hd
    · exact ihc hf.2.1 hd
    · exact ihr hf.2.2 hd

theorem Forall.mapPath {p q : K → D → Forest K D → Prop} {f : Forest K D} (hf : f.Forall p)
    (h : ∀ key data children, p key data children →
      q key (if hit data || children.nodes.any hit then g data else data) (children.mapPath hit g)) :
    (f.mapPath hit g).Forall q := by
  induction f with
  | nil => trivial
  | cons key data children rest ihc ihr => exact ⟨h _ _ _ hf.1, ihc hf.2.1, ihr hf.2.2⟩

end Path

/-! ## Deleting a leaf -/

section Erase

variable {hit : D → Bool}

theorem erase_of_not_hit {f : Forest K D} (h : ∀ d ∈ f.nodes, hit d = false) : f.erase hit = f := by
  induction f with
  | nil => rfl
  | cons key data children rest ihc ihr =>
    rw [erase, if_neg (by rw [h data List.mem_cons_self]; exact Bool.false_ne_true),
      ihc fun d hd => h d (List.mem_cons_of_mem _ (List.mem_append_left _ hd)),
      ihr fun d hd => h d (List.mem_cons_of_mem _ (List.mem_append_right _ hd))]

theorem onlyHit_of_not_hit {f : Forest K D} (h : ∀ d ∈ f.nodes, hit d = false) :
    f.onlyHit hit = false := by
  match f with
  | nil => rfl
  | cons _ data _ nil => exact h data List.mem_cons_self
  | cons _ _ _ (cons ..) => rfl

theorem onlyChildOf_of_not_hit {f : Forest K D} (h : ∀ d ∈ f.nodes, hit d = false) :
    f.onlyChildOf hit = none := by
  induction f with
  | nil => rfl
  | cons key data children rest ihc ihr =>
    have hc : ∀ d ∈ children.nodes, hit d = false :=
      fun d hd => h d (List.mem_cons_of_mem _ (List.mem_append_left _ hd))
    rw [onlyChildOf, onlyHit_of_not_hit hc, ihc hc,
      ihr fun d hd => h d (List.mem_cons_of_mem _ (List.mem_append_right _ hd))]
    rfl

/-- At most one node is hit. -/
def HitOnce (hit : D → Bool) (nodes : List D) : Prop :=
  nodes.Pairwise fun a b => ¬ (hit a = true ∧ hit b = true)

/-- Where the one node hit is, the rest of the forest has none. -/
theorem HitOnce.cons {key : K} {data : D} {children rest : Forest K D}
    (h : HitOnce hit (cons key data children rest).nodes) :
    HitOnce hit children.nodes ∧ HitOnce hit rest.nodes ∧
      (hit data = true → (∀ d ∈ children.nodes, hit d = false) ∧ ∀ d ∈ rest.nodes, hit d = false) ∧
      ((∃ d ∈ children.nodes, hit d = true) → hit data = false ∧ ∀ d ∈ rest.nodes, hit d = false) ∧
      ((∃ d ∈ rest.nodes, hit d = true) → hit data = false ∧ ∀ d ∈ children.nodes, hit d = false) := by
  obtain ⟨hhere, hbelow⟩ := List.pairwise_cons.mp h
  obtain ⟨hc, hr, hcross⟩ := List.pairwise_append.mp hbelow
  refine ⟨hc, hr, fun hd => ⟨?_, ?_⟩, ?_, ?_⟩
  · exact fun d hmem => Bool.eq_false_of_not_eq_true fun hit' =>
      hhere d (List.mem_append_left _ hmem) ⟨hd, hit'⟩
  · exact fun d hmem => Bool.eq_false_of_not_eq_true fun hit' =>
      hhere d (List.mem_append_right _ hmem) ⟨hd, hit'⟩
  · rintro ⟨x, hx, hitx⟩
    exact ⟨Bool.eq_false_of_not_eq_true fun hd => hhere x (List.mem_append_left _ hx) ⟨hd, hitx⟩,
      fun d hmem => Bool.eq_false_of_not_eq_true fun hit' => hcross x hx d hmem ⟨hitx, hit'⟩⟩
  · rintro ⟨x, hx, hitx⟩
    exact ⟨Bool.eq_false_of_not_eq_true fun hd => hhere x (List.mem_append_right _ hx) ⟨hd, hitx⟩,
      fun d hmem => Bool.eq_false_of_not_eq_true fun hit' => hcross d hmem x hx ⟨hit', hitx⟩⟩

theorem leaves_cons_cases {key : K} {data x : D} {children rest : Forest K D}
    (h : x ∈ (cons key data children rest).leaves) :
    (children = nil ∧ x = data) ∨ x ∈ children.leaves ∨ x ∈ rest.leaves := by
  rw [leaves, List.mem_append, List.mem_append] at h
  rcases h with h | h | h
  · cases children with
    | nil => exact .inl ⟨rfl, List.mem_singleton.mp h⟩
    | cons => cases h
  · exact .inr (.inl h)
  · exact .inr (.inr h)

/-- Deleting a leaf takes away its node and no other. -/
theorem erase_perm {f : Forest K D} (honce : HitOnce hit f.nodes) {x : D} (hx : x ∈ f.leaves)
    (hhit : hit x = true) : f.nodes.Perm (x :: (f.erase hit).nodes) := by
  induction f with
  | nil => cases hx
  | cons key data children rest ihc ihr =>
    obtain ⟨hc, hr, hhere, hinc, hinr⟩ := honce.cons
    rcases leaves_cons_cases hx with ⟨rfl, rfl⟩ | hx | hx
    · rw [erase, if_pos hhit]
      exact List.Perm.refl _
    · obtain ⟨hdata, hrest⟩ := hinc ⟨x, leaves_subset_nodes _ x hx, hhit⟩
      rw [erase, if_neg (by rw [hdata]; exact Bool.false_ne_true), erase_of_not_hit hrest, nodes, nodes]
      exact (((ihc hc hx).append_right rest.nodes).cons data).trans (List.Perm.swap _ _ _)
    · obtain ⟨hdata, hchildren⟩ := hinr ⟨x, leaves_subset_nodes _ x hx, hhit⟩
      rw [erase, if_neg (by rw [hdata]; exact Bool.false_ne_true), erase_of_not_hit hchildren, nodes, nodes]
      exact (((ihr hr hx).append_left children.nodes).trans List.perm_middle).cons data |>.trans
        (List.Perm.swap _ _ _)

theorem isNil_erase {f : Forest K D} (hf : f ≠ nil) : (f.erase hit).isNil = f.onlyHit hit := by
  match f with
  | nil => exact absurd rfl hf
  | cons key data children nil =>
    by_cases h : hit data = true
    · rw [erase, if_pos h, onlyHit, h, isNil]
    · rw [erase, if_neg h, onlyHit, isNil]
      exact (Bool.eq_false_of_not_eq_true h).symm
  | cons key data children (cons ..) =>
    rw [erase]
    split <;> rfl

theorem ne_nil_of_mem {f : Forest K D} {d : D} (h : d ∈ f.nodes) : f ≠ nil := by
  rintro rfl
  cases h

theorem onlyChildOf_of_onlyHit {f : Forest K D} (honce : HitOnce hit f.nodes)
    (h : f.onlyHit hit = true) : f.onlyChildOf hit = none := by
  match f with
  | cons key data children nil =>
    have hchildren := (honce.cons.2.2.1 h).1
    rw [onlyChildOf, onlyHit_of_not_hit hchildren, onlyChildOf_of_not_hit hchildren]
    rfl

/-- The leaves after a leaf is deleted: the other leaves, and the node whose only child it was. -/
theorem mem_leaves_erase {f : Forest K D} (honce : HitOnce hit f.nodes) {x : D} (hx : x ∈ f.leaves)
    (hhit : hit x = true) (y : D) :
    y ∈ (f.erase hit).leaves ↔ (y ∈ f.leaves ∧ hit y = false) ∨ f.onlyChildOf hit = some y := by
  induction f with
  | nil => cases hx
  | cons key data children rest ihc ihr =>
    obtain ⟨hc, hr, hhere, hinc, hinr⟩ := honce.cons
    have hleaf : ∀ {g : Forest K D}, (∀ d ∈ g.nodes, hit d = false) →
        (y ∈ g.leaves ↔ y ∈ g.leaves ∧ hit y = false) :=
      fun h => ⟨fun hy => ⟨hy, h y (leaves_subset_nodes _ y hy)⟩, And.left⟩
    rcases leaves_cons_cases hx with ⟨rfl, rfl⟩ | hx | hx
    · have hrest := (hhere hhit).2
      rw [erase, if_pos hhit, onlyChildOf, onlyChildOf_of_not_hit hrest]
      simp only [leaves, isNil, onlyHit, onlyChildOf, List.mem_append, List.mem_singleton, ite_true]
      constructor
      · exact fun hy => .inl ⟨.inr (.inr hy), hrest y (leaves_subset_nodes _ y hy)⟩
      · rintro (⟨rfl | hy | hy, hmiss⟩ | hy)
        · rw [hhit] at hmiss
          cases hmiss
        · cases hy
        · exact hy
        · cases hy
    · have hmem := leaves_subset_nodes _ x hx
      obtain ⟨hdata, hrest⟩ := hinc ⟨x, hmem, hhit⟩
      have hne := ne_nil_of_mem hmem
      have hnotNil : children.isNil = false := by
        cases children with
        | nil => exact absurd rfl hne
        | cons => rfl
      rw [erase, if_neg (by rw [hdata]; exact Bool.false_ne_true), erase_of_not_hit hrest, leaves, leaves,
        isNil_erase hne, onlyChildOf, onlyChildOf_of_not_hit hrest, hnotNil, Option.or_none]
      simp only [List.mem_append, ihc hc hx, Bool.false_eq_true, if_false, List.not_mem_nil, false_or]
      have hrestLeaf := hleaf hrest
      by_cases honly : children.onlyHit hit = true
      · simp only [honly, if_true, List.mem_singleton, Option.some.injEq]
        -- the deleted leaf was the only node of its dictionary
        have hnone := onlyChildOf_of_onlyHit hc honly
        rw [hnone]
        constructor
        · rintro (rfl | (⟨hy, hmiss⟩ | hy) | hy)
          · exact .inr rfl
          · exact .inl ⟨.inl hy, hmiss⟩
          · cases hy
          · exact .inl ⟨.inr hy, (hrestLeaf.mp hy).2⟩
        · rintro (⟨hy | hy, hmiss⟩ | rfl)
          · exact .inr (.inl (.inl ⟨hy, hmiss⟩))
          · exact .inr (.inr hy)
          · exact .inl rfl
      · simp only [honly, if_false, List.not_mem_nil, false_or, Bool.false_eq_true]
        constructor
        · rintro ((⟨hy, hmiss⟩ | hy) | hy)
          · exact .inl ⟨.inl hy, hmiss⟩
          · exact .inr hy
          · exact .inl ⟨.inr hy, (hrestLeaf.mp hy).2⟩
        · rintro (⟨hy | hy, hmiss⟩ | hy)
          · exact .inl (.inl ⟨hy, hmiss⟩)
          · exact .inr hy
          · exact .inl (.inr hy)
    · have hmem := leaves_subset_nodes _ x hx
      obtain ⟨hdata, hchildren⟩ := hinr ⟨x, hmem, hhit⟩
      rw [erase, if_neg (by rw [hdata]; exact Bool.false_ne_true), erase_of_not_hit hchildren, leaves, leaves,
        onlyChildOf, onlyHit_of_not_hit hchildren, onlyChildOf_of_not_hit hchildren, Option.none_or]
      have hchildLeaf := hleaf hchildren
      have hdataLeaf : y ∈ (if children.isNil = true then [data] else []) → hit y = false := by
        intro hy
        split at hy
        · rw [List.mem_singleton.mp hy, hdata]
        · cases hy
      simp only [List.mem_append, ihr hr hx, Bool.false_eq_true, if_false]
      constructor
      · rintro (hy | hy | ⟨hy, hmiss⟩ | hy)
        · exact .inl ⟨.inl hy, hdataLeaf hy⟩
        · exact .inl ⟨.inr (.inl hy), (hchildLeaf.mp hy).2⟩
        · exact .inl ⟨.inr (.inr hy), hmiss⟩
        · exact .inr hy
      · rintro (⟨hy | hy | hy, hmiss⟩ | hy)
        · exact .inl hy
        · exact .inr (.inl hy)
        · exact .inr (.inr (.inl ⟨hy, hmiss⟩))
        · exact .inr (.inr (.inr hy))

theorem onlyChildOf_mem {f : Forest K D} {y : D} (h : f.onlyChildOf hit = some y) : y ∈ f.nodes := by
  induction f with
  | nil => cases h
  | cons key data children rest ihc ihr =>
    rw [onlyChildOf] at h
    split at h
    · cases h
      exact List.mem_cons_self
    · rcases Option.or_eq_some_iff.mp h with h | ⟨_, h⟩
      · exact List.mem_cons_of_mem _ (List.mem_append_left _ (ihc h))
      · exact List.mem_cons_of_mem _ (List.mem_append_right _ (ihr h))

/-- A node with a child is no leaf. -/
theorem onlyChildOf_not_leaf {f : Forest K D} (hnodup : f.nodes.Nodup) {y : D}
    (h : f.onlyChildOf hit = some y) : y ∉ f.leaves := by
  induction f with
  | nil => cases h
  | cons key data children rest ihc ihr =>
    obtain ⟨hhere, hbelow⟩ := List.nodup_cons.mp hnodup
    obtain ⟨hc, hr, hdisjoint⟩ := List.nodup_append'.mp hbelow
    intro hleaf
    have hcases := leaves_cons_cases hleaf
    rw [onlyChildOf] at h
    split at h
    next honly =>
      cases h
      rcases hcases with ⟨rfl, _⟩ | hmem | hmem
      · cases honly
      · exact hhere (List.mem_append_left _ (leaves_subset_nodes _ _ hmem))
      · exact hhere (List.mem_append_right _ (leaves_subset_nodes _ _ hmem))
    next =>
      rcases Option.or_eq_some_iff.mp h with h | ⟨_, h⟩
      · have hmem := onlyChildOf_mem h
        rcases hcases with ⟨rfl, _⟩ | hleaf | hleaf
        · cases hmem
        · exact ihc hc h hleaf
        · exact hdisjoint hmem (leaves_subset_nodes _ _ hleaf)
      · have hmem := onlyChildOf_mem h
        rcases hcases with ⟨_, rfl⟩ | hleaf | hleaf
        · exact hhere (List.mem_append_right _ hmem)
        · exact hdisjoint (leaves_subset_nodes _ _ hleaf) hmem
        · exact ihr hr h hleaf

theorem keys_erase_sublist (f : Forest K D) : (f.erase hit).keys.Sublist f.keys := by
  induction f with
  | nil => exact List.Sublist.refl _
  | cons key data children rest _ ih =>
    rw [erase]
    split
    · exact List.sublist_cons_self _ _
    · exact ih.cons_cons _

theorem roots_erase_sublist (f : Forest K D) : (f.erase hit).roots.Sublist f.roots := by
  induction f with
  | nil => exact List.Sublist.refl _
  | cons key data children rest _ ih =>
    rw [erase]
    split
    · exact List.sublist_cons_self _ _
    · exact ih.cons_cons _

theorem Forall.erase {p : K → D → Forest K D → Prop} {f : Forest K D} (hf : f.Forall p)
    (h : ∀ key data children, p key data children → p key data (children.erase hit)) :
    (f.erase hit).Forall p := by
  induction f with
  | nil => trivial
  | cons key data children rest ihc ihr =>
    rw [Forest.erase]
    split
    · exact hf.2.2
    · exact ⟨h _ _ _ hf.1, ihc hf.2.1, ihr hf.2.2⟩

end Erase

end Forest

end QCFuse.Library
