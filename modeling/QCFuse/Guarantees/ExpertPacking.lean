import QCFuse.Library.IndexPerm
import QCFuse.Library.Replication
import QCFuse.Source.ExpertBalancer
import QCFuse.Source.Python

/-!
# Packs, replicas, and the experts of a layer

`balanced_packing` gives every item a place of its own in a pack, `replicate_experts` gives every logical
expert at least one replica and as low a highest load as there is, and what
`rebalance_experts_hierarchical` makes of both names every replica once.
-/

set_option autoImplicit false

namespace QCFuse.Guarantees

open QCFuse.Library QCFuse.Source

theorem divisible_ok {a b : Nat} (hb : 0 < b) (q : Nat) (ha : a = q * b) : divisible a b = .ok q := by
  subst ha
  simp only [divisible, divmod, if_neg (Nat.ne_of_gt hb), bind, Except.bind, Nat.mul_mod_left, if_true,
    Nat.mul_div_cancel _ hb, pure, Except.pure]

/-! ## `balanced_packing` -/

/-- The items packed so far have places of their own. -/
structure Packed (numPacks room : Nat) (done : List Nat) (packing : Packing) : Prop where
  place : ∀ g ∈ done, ∃ p < numPacks, ∃ r < packing.packItems p, packing.packIndex g = p ∧ packing.rankInPack g = r
  inj : ∀ g ∈ done, ∀ g' ∈ done, packing.packIndex g = packing.packIndex g' →
    packing.rankInPack g = packing.rankInPack g' → g = g'
  room_le : ∀ p < numPacks, packing.packItems p ≤ room
  total : ∑ p ∈ Finset.range numPacks, packing.packItems p = done.length

section Packing

variable {numPacks room numGroups : Nat} {done : List Nat} {packing : Packing} {weight : Nat → Rat}

theorem Packed.has_room (h : Packed numPacks room done packing) (hroom : done.length < numPacks * room) :
    ∃ p < numPacks, packing.packItems p < room := by
  by_contra hnone
  have hfull : ∀ p ∈ Finset.range numPacks, packing.packItems p = room := fun p hp => by
    have hp := Finset.mem_range.mp hp
    refine Nat.le_antisymm (h.room_le p hp) (Nat.le_of_not_lt fun hlt => hnone ⟨p, hp, hlt⟩)
  have htotal := h.total
  rw [Finset.sum_congr rfl hfull, Finset.sum_const, Finset.card_range, smul_eq_mul] at htotal
  omega

theorem Packed.packGroup_cases (h : Packed numPacks room done packing) (hroom : done.length < numPacks * room)
    (weight : Nat → Rat) (group : Nat) : ∃ pack < numPacks, packing.packItems pack < room ∧
      packGroup weight numPacks room packing group = .ok (packing.put group pack (weight group)) := by
  obtain ⟨p, hp, hlt⟩ := h.has_room hroom
  rw [packGroup]
  cases hmin : ((List.range numPacks).filter fun i => packing.packItems i < room).argmin packing.packWeights with
  | none =>
    have hmem : p ∈ (List.range numPacks).filter fun i => packing.packItems i < room :=
      List.mem_filter.mpr ⟨List.mem_range.mpr hp, decide_eq_true hlt⟩
    rw [List.argmin_eq_none.mp hmin] at hmem
    cases hmem
  | some pack =>
    obtain ⟨hpack, hfree⟩ := List.mem_filter.mp (List.argmin_mem hmin)
    exact ⟨pack, List.mem_range.mp hpack, of_decide_eq_true hfree, rfl⟩

/-- An item that was not packed before gets the next rank of its pack. -/
theorem Packed.put (h : Packed numPacks room done packing) {group pack : Nat} (hgroup : group ∉ done)
    (hpack : pack < numPacks) (hfree : packing.packItems pack < room) (weight : Rat) :
    Packed numPacks room (done ++ [group]) (packing.put group pack weight) := by
  have hne : ∀ g ∈ done, g ≠ group := fun g hg heq => hgroup (heq ▸ hg)
  have hnew : ∀ g ∈ done, packing.packIndex g = pack → packing.rankInPack g ≠ packing.packItems pack := by
    intro g hg hindex hrank
    obtain ⟨p, -, r, hr, hindex', hrank'⟩ := h.place g hg
    obtain rfl : p = pack := Nat.cast_injective (R := Int) (hindex'.symm.trans hindex)
    have hfull : r = packing.packItems p := Nat.cast_injective (R := Int) (hrank'.symm.trans hrank)
    omega
  refine ⟨fun g hg => ?_, fun g hg g' hg' hindex hrank => ?_, fun p hp => ?_, ?_⟩
  · rcases List.mem_append.mp hg with hg | hg
    · obtain ⟨p, hp, r, hr, hindex, hrank⟩ := h.place g hg
      refine ⟨p, hp, r, ?_, (Function.update_of_ne (hne g hg) ..).trans hindex,
        (Function.update_of_ne (hne g hg) ..).trans hrank⟩
      by_cases heq : p = pack
      · subst heq
        rw [Packing.put_packItems, Function.update_self]
        omega
      · rwa [Packing.put_packItems, Function.update_of_ne heq]
    · rw [List.mem_singleton.mp hg]
      refine ⟨pack, hpack, packing.packItems pack, ?_, Function.update_self .., Function.update_self ..⟩
      rw [Packing.put_packItems, Function.update_self]
      exact Nat.lt_succ_self _
  · rw [Packing.put_packIndex] at hindex
    rw [Packing.put_rankInPack] at hrank
    rcases List.mem_append.mp hg with hg | hg <;> rcases List.mem_append.mp hg' with hg' | hg'
    · rw [Function.update_of_ne (hne g hg), Function.update_of_ne (hne g' hg')] at hindex hrank
      exact h.inj g hg g' hg' hindex hrank
    · rw [List.mem_singleton.mp hg', Function.update_of_ne (hne g hg), Function.update_self] at hindex hrank
      exact absurd hrank (hnew g hg hindex)
    · rw [List.mem_singleton.mp hg, Function.update_of_ne (hne g' hg'), Function.update_self] at hindex hrank
      exact absurd hrank.symm (hnew g' hg' hindex.symm)
    · rw [List.mem_singleton.mp hg, List.mem_singleton.mp hg']
  · by_cases heq : p = pack
    · rw [heq, Packing.put_packItems, Function.update_self]
      exact hfree
    · rw [Packing.put_packItems, Function.update_of_ne heq]
      exact h.room_le p hp
  · have hmem := Finset.mem_range.mpr hpack
    rw [Packing.put_packItems, Finset.sum_update_of_mem hmem, List.length_append, List.length_singleton, ← h.total,
      ← Finset.add_sum_erase _ _ hmem, Finset.sdiff_singleton_eq_erase]
    omega

theorem Packed.packGroups (h : Packed numPacks room done packing) (weight : Nat → Rat) {groups : List Nat}
    (hnodup : (done ++ groups).Nodup) (htotal : (done ++ groups).length = numPacks * room) :
    ∃ packing', groups.foldlM (packGroup weight numPacks room) packing = .ok packing' ∧
      Packed numPacks room (done ++ groups) packing' := by
  induction groups generalizing done packing with
  | nil => exact ⟨packing, rfl, by rwa [List.append_nil]⟩
  | cons group groups ih =>
    have hgroup : group ∉ done := fun hmem => (List.disjoint_of_nodup_append hnodup) hmem List.mem_cons_self
    rw [List.length_append, List.length_cons] at htotal
    obtain ⟨pack, hpack, hfree, hstep⟩ := h.packGroup_cases (by omega) weight group
    have hsplit : done ++ group :: groups = done ++ [group] ++ groups := List.append_cons done group groups
    rw [hsplit] at hnodup ⊢
    rw [List.foldlM_cons, hstep]
    refine ih (h.put hgroup hpack hfree _) hnodup ?_
    rw [List.length_append, List.length_append, List.length_singleton]
    omega

/-- Every item has a place of its own. -/
structure Packs (numGroups numPacks room : Nat) (packing : Packing) : Prop where
  place : ∀ g < numGroups, ∃ p < numPacks, ∃ r < room, packing.packIndex g = p ∧ packing.rankInPack g = r
  inj : ∀ g < numGroups, ∀ g' < numGroups, packing.packIndex g = packing.packIndex g' →
    packing.rankInPack g = packing.rankInPack g' → g = g'

theorem balancedPacking_ok (sort : DescendingSort) (weight : Nat → Rat) (hpacks : 0 < numPacks)
    (hgroups : numGroups = room * numPacks) : ∃ packing,
      balancedPacking sort numGroups weight numPacks = .ok packing ∧ Packs numGroups numPacks room packing := by
  simp only [balancedPacking, divisible_ok hpacks room hgroups, bind, Except.bind]
  by_cases hone : room = 1
  · rw [if_pos hone]
    subst hone
    rw [Nat.one_mul] at hgroups
    refine ⟨_, rfl, fun g hg => ⟨g, hgroups ▸ hg, 0, Nat.one_pos, rfl, rfl⟩, fun g _ g' _ hindex _ => ?_⟩
    exact Nat.cast_injective (R := Int) hindex
  · rw [if_neg hone]
    have hperm := sort.perm numGroups weight
    have hnone : Packed numPacks room [] ⟨fun _ => -1, fun _ => -1, fun _ => 0, fun _ => 0⟩ :=
      ⟨fun g hg => absurd hg List.not_mem_nil, fun g hg => absurd hg List.not_mem_nil, fun _ _ => Nat.zero_le _,
        by simp⟩
    obtain ⟨packing, hrun, hpacked⟩ := hnone.packGroups weight (hperm.nodup_iff.mpr List.nodup_range)
      (by rw [List.nil_append, hperm.length_eq, List.length_range, hgroups, Nat.mul_comm])
    have hmem : ∀ g < numGroups, g ∈ [] ++ sort.indices numGroups weight := fun g hg =>
      hperm.mem_iff.mpr (List.mem_range.mpr hg)
    refine ⟨packing, hrun, fun g hg => ?_, fun g hg g' hg' => hpacked.inj g (hmem g hg) g' (hmem g' hg')⟩
    obtain ⟨p, hp, r, hr, hplace⟩ := hpacked.place g (hmem g hg)
    exact ⟨p, hp, r, Nat.lt_of_lt_of_le hr (hpacked.room_le p hp), hplace⟩

/-- The place of an item when the packs stand one behind the other. -/
def slotOf (packing : Packing) (room g : Nat) : Nat := (packing.packIndex g * room + packing.rankInPack g).toNat

theorem Packs.slot_eq (h : Packs numGroups numPacks room packing) {g : Nat} (hg : g < numGroups) :
    ∃ p < numPacks, ∃ r < room, packing.packIndex g = p ∧ packing.rankInPack g = r ∧
      slotOf packing room g = p * room + r := by
  obtain ⟨p, hp, r, hr, hindex, hrank⟩ := h.place g hg
  refine ⟨p, hp, r, hr, hindex, hrank, ?_⟩
  rw [slotOf, hindex, hrank]
  exact_mod_cast Int.toNat_natCast _

theorem Packs.permutes (h : Packs numGroups numPacks room packing) (hgroups : numGroups = room * numPacks) :
    PermutesBelow numGroups (slotOf packing room) where
  lt g hg := by
    obtain ⟨p, hp, r, hr, -, -, hslot⟩ := h.slot_eq hg
    rw [hslot, hgroups, Nat.mul_comm room]
    exact place_lt hp hr
  inj g hg g' hg' heq := by
    obtain ⟨p, -, r, hr, hindex, hrank, hslot⟩ := h.slot_eq hg
    obtain ⟨p', -, r', hr', hindex', hrank', hslot'⟩ := h.slot_eq hg'
    rw [hslot, hslot'] at heq
    obtain ⟨hp, hr⟩ := place_inj hr hr' heq
    exact h.inj g hg g' hg' (by rw [hindex, hindex', hp]) (by rw [hrank, hrank', hr])

end Packing

/-! ## `replicate_experts` -/

/-- The first `done` physical experts are the replicas of the logical ones, each with a rank of its own. -/
structure Replicated (numLog done : Nat) (replicas : Replicas) : Prop where
  lt : ∀ p < done, replicas.phy2log p < numLog ∧ replicas.rank p < replicas.logcnt (replicas.phy2log p)
  inj : ∀ p < done, ∀ p' < done, replicas.phy2log p = replicas.phy2log p' →
    replicas.rank p = replicas.rank p' → p = p'
  onto : ∀ e < numLog, ∀ k < replicas.logcnt e, ∃ p < done, replicas.phy2log p = e ∧ replicas.rank p = k
  one_le : ∀ e < numLog, 1 ≤ replicas.logcnt e

/-- And each was made for an expert of the highest load. -/
structure ReplicatedEvenly (numLog : Nat) (weight : Nat → Rat) (done : Nat) (replicas : Replicas) : Prop where
  replicated : Replicated numLog done replicas
  heaviest : (∀ e < numLog, 0 ≤ weight e) → HeaviestFirst (Finset.range numLog) weight replicas.logcnt

section Replication

variable {numLog done : Nat} {replicas : Replicas} {weight : Nat → Rat}

theorem Replicated.add (h : Replicated numLog done replicas) {e : Nat} (he : e < numLog) :
    Replicated numLog (done + 1) (replicas.add done e) where
  lt p hp := by
    rcases Nat.lt_or_eq_of_le (Nat.le_of_lt_succ hp) with hp | rfl
    · obtain ⟨hlog, hrank⟩ := h.lt p hp
      rw [Replicas.add_phy2log, Replicas.add_rank, Replicas.add_logcnt, Function.update_of_ne (Nat.ne_of_lt hp),
        Function.update_of_ne (Nat.ne_of_lt hp)]
      refine ⟨hlog, ?_⟩
      by_cases heq : replicas.phy2log p = e
      · rw [heq, Function.update_self]
        exact Nat.lt_succ_of_lt (heq ▸ hrank)
      · rwa [Function.update_of_ne heq]
    · rw [Replicas.add_phy2log, Replicas.add_rank, Replicas.add_logcnt, Function.update_self, Function.update_self,
        Function.update_self]
      exact ⟨he, Nat.lt_succ_self _⟩
  inj p hp p' hp' hlog hrank := by
    rw [Replicas.add_phy2log] at hlog
    rw [Replicas.add_rank] at hrank
    rcases Nat.lt_or_eq_of_le (Nat.le_of_lt_succ hp) with hp | hp <;>
      rcases Nat.lt_or_eq_of_le (Nat.le_of_lt_succ hp') with hp' | hp'
    · rw [Function.update_of_ne (Nat.ne_of_lt hp), Function.update_of_ne (Nat.ne_of_lt hp')] at hlog hrank
      exact h.inj p hp p' hp' hlog hrank
    · rw [hp', Function.update_of_ne (Nat.ne_of_lt hp), Function.update_self] at hlog hrank
      exact absurd hrank (Nat.ne_of_lt (hlog ▸ (h.lt p hp).2))
    · rw [hp, Function.update_of_ne (Nat.ne_of_lt hp'), Function.update_self] at hlog hrank
      exact absurd hrank.symm (Nat.ne_of_lt (hlog ▸ (h.lt p' hp').2))
    · rw [hp, hp']
  onto e' he' k hk := by
    rw [Replicas.add_logcnt] at hk
    rw [Replicas.add_phy2log, Replicas.add_rank]
    have hold : k < replicas.logcnt e' → ∃ p < done + 1, Function.update replicas.phy2log done e p = e' ∧
        Function.update replicas.rank done (replicas.logcnt e) p = k := fun hk => by
      obtain ⟨p, hp, hlog, hrank⟩ := h.onto e' he' k hk
      refine ⟨p, Nat.lt_succ_of_lt hp, ?_, ?_⟩
      · rwa [Function.update_of_ne (Nat.ne_of_lt hp)]
      · rwa [Function.update_of_ne (Nat.ne_of_lt hp)]
    by_cases heq : e' = e
    · rw [heq, Function.update_self] at hk
      rcases Nat.lt_or_eq_of_le (Nat.le_of_lt_succ hk) with hk | rfl
      · exact hold (heq ▸ hk)
      · exact ⟨done, Nat.lt_succ_self _, by rw [Function.update_self, heq], Function.update_self ..⟩
    · rw [Function.update_of_ne heq] at hk
      exact hold hk
  one_le e' he' := by
    rw [Replicas.add_logcnt]
    by_cases heq : e' = e
    · rw [heq, Function.update_self]
      exact Nat.succ_pos _
    · rw [Function.update_of_ne heq]
      exact h.one_le e' he'

theorem addReplica_cases (hlog : 0 < numLog) (weight : Nat → Rat) (replicas : Replicas) (i : Nat) :
    ∃ e < numLog, (∀ e' < numLog, weight e' / replicas.logcnt e' ≤ weight e / replicas.logcnt e) ∧
      addReplica numLog weight replicas i = .ok (replicas.add i e) := by
  rw [addReplica]
  cases hmax : (List.range numLog).argmax fun e => weight e / replicas.logcnt e with
  | none => exact absurd (List.range_eq_nil.mp (List.argmax_eq_none.mp hmax)) (Nat.ne_of_gt hlog)
  | some e =>
    refine ⟨e, List.mem_range.mp (List.argmax_mem hmax), fun e' he' => ?_, rfl⟩
    exact List.le_of_mem_argmax (List.mem_range.mpr he') hmax

theorem ReplicatedEvenly.addReplica (h : ReplicatedEvenly numLog weight done replicas) (hlog : 0 < numLog) :
    ∃ replicas', addReplica numLog weight replicas done = .ok replicas' ∧
      ReplicatedEvenly numLog weight (done + 1) replicas' := by
  obtain ⟨e, he, hmax, hstep⟩ := addReplica_cases hlog weight replicas done
  refine ⟨_, hstep, h.replicated.add he, fun hweight => ?_⟩
  exact (h.heaviest hweight).add (fun e' he' => hweight e' (Finset.mem_range.mp he'))
    fun e' he' => hmax e' (Finset.mem_range.mp he')

theorem ReplicatedEvenly.addReplicas (h : ReplicatedEvenly numLog weight done replicas) (hlog : 0 < numLog)
    (n : Nat) : ∃ replicas',
      (List.range' done n).foldlM (QCFuse.Source.addReplica numLog weight) replicas = .ok replicas' ∧
      ReplicatedEvenly numLog weight (done + n) replicas' := by
  induction n generalizing done replicas with
  | zero => exact ⟨replicas, rfl, h⟩
  | succ n ih =>
    obtain ⟨replicas', hstep, hnext⟩ := h.addReplica hlog
    rw [List.range'_succ, List.foldlM_cons, hstep, Nat.add_comm n, ← Nat.add_assoc]
    exact ih hnext

theorem replicateExperts_ok (hlog : 0 < numLog) {numPhy : Nat} (hle : numLog ≤ numPhy) (weight : Nat → Rat) :
    ∃ replicas, replicateExperts numLog weight numPhy = .ok replicas ∧
      ReplicatedEvenly numLog weight numPhy replicas := by
  have hfirst : ReplicatedEvenly numLog weight numLog ⟨fun i => i, fun _ => 0, fun _ => 1⟩ := by
    refine ⟨⟨fun p hp => ⟨hp, Nat.one_pos⟩, fun p _ p' _ heq _ => heq, fun e he k hk => ?_, fun _ _ => Nat.le_refl 1⟩,
      fun _ => heaviestFirst_one _ _⟩
    exact ⟨e, he, rfl, (Nat.lt_one_iff.mp hk).symm⟩
  obtain ⟨replicas, hrun, h⟩ := hfirst.addReplicas hlog (numPhy - numLog)
  rw [Nat.add_sub_cancel' hle] at h
  exact ⟨replicas, by rw [replicateExperts, if_neg (Nat.not_lt.mpr hle), hrun], h⟩

/-- There are as many replicas as physical experts. -/
theorem Replicated.total (h : Replicated numLog done replicas) :
    ∑ e ∈ Finset.range numLog, replicas.logcnt e = done := by
  have hcard := Finset.card_nbij (s := Finset.range done)
    (t := (Finset.range numLog).sigma fun e => Finset.range (replicas.logcnt e))
    (fun p => ⟨replicas.phy2log p, replicas.rank p⟩)
    (fun p hp => by
      obtain ⟨hlog, hrank⟩ := h.lt p (Finset.mem_range.mp (Finset.mem_coe.mp hp))
      exact Finset.mem_coe.mpr (Finset.mem_sigma.mpr ⟨Finset.mem_range.mpr hlog, Finset.mem_range.mpr hrank⟩))
    (fun p hp p' hp' heq => by
      obtain ⟨hlog, hrank⟩ := Sigma.mk.inj heq
      exact h.inj p (Finset.mem_range.mp (Finset.mem_coe.mp hp)) p' (Finset.mem_range.mp (Finset.mem_coe.mp hp')) hlog
        (eq_of_heq hrank))
    (fun e he => by
      obtain ⟨hlog, hrank⟩ := Finset.mem_sigma.mp (Finset.mem_coe.mp he)
      obtain ⟨p, hp, hlog', hrank'⟩ := h.onto e.1 (Finset.mem_range.mp hlog) e.2 (Finset.mem_range.mp hrank)
      exact ⟨p, Finset.mem_coe.mpr (Finset.mem_range.mpr hp), Sigma.ext hlog' (heq_of_eq hrank')⟩)
  rw [Finset.card_range, Finset.card_sigma] at hcard
  simpa only [Finset.card_range] using hcard.symm

/-- The physical experts in another order. -/
theorem Replicated.reorder (h : Replicated numLog done replicas) {order : Nat → Nat}
    (horder : PermutesBelow done order) : Replicated numLog done { replicas with
      phy2log := fun p => replicas.phy2log (order p), rank := fun p => replicas.rank (order p) } where
  lt p hp := h.lt (order p) (horder.lt p hp)
  inj p hp p' hp' hlog hrank :=
    horder.inj p hp p' hp' (h.inj _ (horder.lt p hp) _ (horder.lt p' hp') hlog hrank)
  onto e he k hk := by
    obtain ⟨p, hp, hlog, hrank⟩ := h.onto e he k hk
    obtain ⟨q, hq, rfl⟩ := horder.onto hp
    exact ⟨q, hq, hlog, hrank⟩
  one_le := h.one_le

end Replication

/-! ## `rebalance_experts_hierarchical` -/

theorem inversePerm_left {n : Nat} {perm : Nat → Nat} (h : PermutesBelow n perm) {j : Nat} (hj : j < n) :
    inversePerm n perm (perm j) = j := by
  refine foldl_update_of_hit perm (fun j => j) _ ⟨j, List.mem_range.mpr hj, rfl⟩ fun i hi heq => ?_
  exact h.inj i (List.mem_range.mp hi) j hj heq

theorem inversePerm_right {n : Nat} {perm : Nat → Nat} (h : PermutesBelow n perm) {k : Nat} (hk : k < n) :
    inversePerm n perm k < n ∧ perm (inversePerm n perm k) = k := by
  obtain ⟨j, hj, rfl⟩ := h.onto hk
  rw [inversePerm_left h hj]
  exact ⟨hj, rfl⟩

theorem inversePerm_permutes {n : Nat} {perm : Nat → Nat} (h : PermutesBelow n perm) :
    PermutesBelow n (inversePerm n perm) where
  lt k hk := (inversePerm_right h hk).1
  inj k hk k' hk' heq := by rw [← (inversePerm_right h hk).2, heq, (inversePerm_right h hk').2]

theorem balanceNode_ok (sort : DescendingSort) {numLog numPhy numGpus room : Nat} (weight : Nat → Rat)
    (hlog : 0 < numLog) (hle : numLog ≤ numPhy) (hgpus : 0 < numGpus) (hphy : numPhy = room * numGpus) :
    ∃ replicas, balanceNode sort numLog weight numPhy numGpus room = .ok replicas ∧
      ReplicatedEvenly numLog weight numPhy replicas := by
  obtain ⟨replicas, hreplicas, h⟩ := replicateExperts_ok hlog hle weight
  obtain ⟨packing, hpacking, hpacks⟩ := balancedPacking_ok sort
    (fun p => weight (replicas.phy2log p) / replicas.logcnt (replicas.phy2log p)) hgpus hphy
  have hrun : balanceNode sort numLog weight numPhy numGpus room = .ok { replicas with
      phy2log := fun p => replicas.phy2log (inversePerm numPhy (slotOf packing room) p)
      rank := fun p => replicas.rank (inversePerm numPhy (slotOf packing room) p) } := by
    simp only [balanceNode, hreplicas, hpacking, bind, Except.bind, pure, Except.pure]
    rfl
  exact ⟨_, hrun, h.replicated.reorder (inversePerm_permutes (hpacks.permutes hphy)), h.heaviest⟩

/-- The shapes that the assertions of `rebalance_experts_hierarchical` ask for, as products. -/
structure BalanceShape where
  groupSize : Nat
  groupsPerNode : Nat
  numNodes : Nat
  gpusPerNode : Nat
  room : Nat
  numNodes_pos : 0 < numNodes
  gpusPerNode_pos : 0 < gpusPerNode
  logPerNode_pos : 0 < groupSize * groupsPerNode
  enough : groupSize * groupsPerNode ≤ room * gpusPerNode

namespace BalanceShape

variable (shape : BalanceShape)

def numGroups : Nat := shape.groupsPerNode * shape.numNodes

def numLogicalExperts : Nat := shape.groupSize * shape.numGroups

def numGpus : Nat := shape.gpusPerNode * shape.numNodes

def numPhysicalExperts : Nat := shape.room * shape.numGpus

def logPerNode : Nat := shape.groupSize * shape.groupsPerNode

def phyPerNode : Nat := shape.room * shape.gpusPerNode

theorem numLogicalExperts_eq : shape.numLogicalExperts = shape.logPerNode * shape.numNodes :=
  (Nat.mul_assoc ..).symm

theorem numPhysicalExperts_eq : shape.numPhysicalExperts = shape.phyPerNode * shape.numNodes :=
  (Nat.mul_assoc ..).symm

theorem groupSize_pos : 0 < shape.groupSize := Nat.pos_of_mul_pos_right shape.logPerNode_pos

end BalanceShape

section Hierarchical

variable {shape : BalanceShape} {packing : Packing}

theorem log2mlog_eq (hpacks : Packs shape.numGroups shape.numNodes shape.groupsPerNode packing) {e : Nat}
    (he : e < shape.numLogicalExperts) : log2mlog shape.groupSize shape.groupsPerNode packing e =
      slotOf packing shape.groupsPerNode (e / shape.groupSize) * shape.groupSize + e % shape.groupSize := by
  have hgroup : e / shape.groupSize < shape.numGroups :=
    Nat.div_lt_of_lt_mul (by rwa [BalanceShape.numLogicalExperts] at he)
  obtain ⟨p, -, r, -, hindex, hrank, hslot⟩ := hpacks.slot_eq hgroup
  rw [log2mlog, hslot, hindex, hrank]
  norm_cast

theorem log2mlog_permutes (hpacks : Packs shape.numGroups shape.numNodes shape.groupsPerNode packing) :
    PermutesBelow shape.numLogicalExperts (log2mlog shape.groupSize shape.groupsPerNode packing) := by
  have hperm := hpacks.permutes rfl
  have hgroup : ∀ e < shape.numLogicalExperts, e / shape.groupSize < shape.numGroups := fun e he =>
    Nat.div_lt_of_lt_mul (by rwa [BalanceShape.numLogicalExperts] at he)
  refine ⟨fun e he => ?_, fun e he e' he' heq => ?_⟩
  · rw [log2mlog_eq hpacks he, BalanceShape.numLogicalExperts, Nat.mul_comm shape.groupSize shape.numGroups]
    exact place_lt (hperm.lt _ (hgroup e he)) (Nat.mod_lt _ shape.groupSize_pos)
  · rw [log2mlog_eq hpacks he, log2mlog_eq hpacks he'] at heq
    obtain ⟨hslot, hrest⟩ := place_inj (Nat.mod_lt e shape.groupSize_pos) (Nat.mod_lt e' shape.groupSize_pos) heq
    rw [← Nat.div_add_mod e shape.groupSize, ← Nat.div_add_mod e' shape.groupSize, hrest,
      hperm.inj _ (hgroup e he) _ (hgroup e' he') hslot]

/-- The node of an expert is the pack of its group. -/
theorem log2mlog_node (hpacks : Packs shape.numGroups shape.numNodes shape.groupsPerNode packing) {e : Nat}
    (he : e < shape.numLogicalExperts) :
    ((log2mlog shape.groupSize shape.groupsPerNode packing e / shape.logPerNode : Nat) : Int) =
      packing.packIndex (e / shape.groupSize) := by
  have hgroup : e / shape.groupSize < shape.numGroups :=
    Nat.div_lt_of_lt_mul (by rwa [BalanceShape.numLogicalExperts] at he)
  obtain ⟨p, -, r, hr, hindex, -, hslot⟩ := hpacks.slot_eq hgroup
  rw [log2mlog_eq hpacks he, hindex, BalanceShape.logPerNode, ← Nat.div_div_eq_div_mul,
    place_div (Nat.mod_lt _ shape.groupSize_pos), hslot, place_div hr]

/-- The nodes one behind the other, each with its own experts. -/
structure NodesReplicated (shape : BalanceShape) (weight : Nat → Rat) (mlog2log : Nat → Nat) (node : Nat → Replicas) :
    Prop where
  each : ∀ i < shape.numNodes, ReplicatedEvenly shape.logPerNode
    (fun m => weight (mlog2log (i * shape.logPerNode + m))) shape.phyPerNode (node i)

variable {weight : Nat → Rat} {place : Nat → Nat} {node : Nat → Replicas}

theorem phyPerNode_pos (shape : BalanceShape) : 0 < shape.phyPerNode :=
  Nat.lt_of_lt_of_le shape.logPerNode_pos shape.enough

theorem node_of_lt (shape : BalanceShape) {p : Nat} (hp : p < shape.numPhysicalExperts) :
    p / shape.phyPerNode < shape.numNodes :=
  Nat.div_lt_of_lt_mul (shape.numPhysicalExperts_eq ▸ hp)

/-- Where the expert of a physical one stands. -/
theorem place_phy2log (hplace : PermutesBelow shape.numLogicalExperts place)
    (h : NodesReplicated shape weight (inversePerm shape.numLogicalExperts place) node) {p : Nat}
    (hp : p < shape.numPhysicalExperts) :
    (joinNodes place (inversePerm shape.numLogicalExperts place) shape.logPerNode shape.phyPerNode node).phy2log p <
        shape.numLogicalExperts ∧
      place ((joinNodes place (inversePerm shape.numLogicalExperts place) shape.logPerNode shape.phyPerNode
        node).phy2log p) = p / shape.phyPerNode * shape.logPerNode +
          (node (p / shape.phyPerNode)).phy2log (p % shape.phyPerNode) ∧
      (node (p / shape.phyPerNode)).phy2log (p % shape.phyPerNode) < shape.logPerNode := by
  have hnode := node_of_lt shape hp
  have hlocal := ((h.each _ hnode).replicated.lt _ (Nat.mod_lt p (phyPerNode_pos shape))).1
  have hm : (node (p / shape.phyPerNode)).phy2log (p % shape.phyPerNode) + p / shape.phyPerNode * shape.logPerNode <
      shape.numLogicalExperts := by
    rw [Nat.add_comm, shape.numLogicalExperts_eq, Nat.mul_comm shape.logPerNode]
    exact place_lt hnode hlocal
  obtain ⟨hlt, hright⟩ := inversePerm_right hplace hm
  exact ⟨hlt, hright.trans (Nat.add_comm ..), hlocal⟩

theorem joinNodes_replicated (hplace : PermutesBelow shape.numLogicalExperts place)
    (h : NodesReplicated shape weight (inversePerm shape.numLogicalExperts place) node) :
    Replicated shape.numLogicalExperts shape.numPhysicalExperts
      (joinNodes place (inversePerm shape.numLogicalExperts place) shape.logPerNode shape.phyPerNode node) where
  lt p hp := by
    obtain ⟨hlt, hat, hlocal⟩ := place_phy2log hplace h hp
    refine ⟨hlt, ?_⟩
    have hrank := ((h.each _ (node_of_lt shape hp)).replicated.lt _ (Nat.mod_lt p (phyPerNode_pos shape))).2
    show (node (p / shape.phyPerNode)).rank (p % shape.phyPerNode) < (node (place _ / shape.logPerNode)).logcnt
      (place _ % shape.logPerNode)
    rwa [hat, place_div hlocal, place_mod hlocal]
  inj p hp p' hp' hlog hrank := by
    obtain ⟨-, hat, hlocal⟩ := place_phy2log hplace h hp
    obtain ⟨-, hat', hlocal'⟩ := place_phy2log hplace h hp'
    rw [hlog, hat'] at hat
    obtain ⟨hnode, hsame⟩ := place_inj hlocal hlocal' hat.symm
    have hmod : p % shape.phyPerNode = p' % shape.phyPerNode := by
      refine (h.each _ (node_of_lt shape hp)).replicated.inj _ (Nat.mod_lt _ (phyPerNode_pos shape)) _
        (Nat.mod_lt _ (phyPerNode_pos shape)) ?_ ?_
      · rw [hsame, hnode]
      · exact hrank.trans (by rw [joinNodes, hnode])
    rw [← Nat.div_add_mod p shape.phyPerNode, ← Nat.div_add_mod p' shape.phyPerNode, hnode, hmod]
  onto e he k hk := by
    have hm := hplace.lt e he
    have hnode : place e / shape.logPerNode < shape.numNodes :=
      Nat.div_lt_of_lt_mul (shape.numLogicalExperts_eq ▸ hm)
    have hlocal := Nat.mod_lt (place e) (show 0 < shape.logPerNode from shape.logPerNode_pos)
    obtain ⟨q, hq, hlog, hrank⟩ := (h.each _ hnode).replicated.onto _ hlocal k hk
    refine ⟨place e / shape.logPerNode * shape.phyPerNode + q, ?_, ?_, ?_⟩
    · rw [shape.numPhysicalExperts_eq, Nat.mul_comm shape.phyPerNode]
      exact place_lt hnode hq
    · show inversePerm _ place (_ + _) = e
      rw [place_div hq, place_mod hq, hlog, Nat.mul_comm, Nat.mod_add_div, inversePerm_left hplace he]
    · show (node (_ / _)).rank (_ % _) = k
      rw [place_div hq, place_mod hq, hrank]
  one_le e he := by
    have hnode : place e / shape.logPerNode < shape.numNodes :=
      Nat.div_lt_of_lt_mul (shape.numLogicalExperts_eq ▸ hplace.lt e he)
    exact (h.each _ hnode).replicated.one_le _ (Nat.mod_lt _ shape.logPerNode_pos)

/-- Two experts on node `i`. -/
theorem NodesReplicated.even (hplace : PermutesBelow shape.numLogicalExperts place)
    (h : NodesReplicated shape weight (inversePerm shape.numLogicalExperts place) node)
    (hweight : ∀ e < shape.numLogicalExperts, 0 ≤ weight e) {i m m' e e' : Nat} (hi : i < shape.numNodes)
    (he : e < shape.numLogicalExperts) (he' : e' < shape.numLogicalExperts)
    (hat : place e = i * shape.logPerNode + m) (hat' : place e' = i * shape.logPerNode + m')
    (hm : m < shape.logPerNode) (hm' : m' < shape.logPerNode)
    (htwo : 2 ≤ (joinNodes place (inversePerm shape.numLogicalExperts place) shape.logPerNode shape.phyPerNode
      node).logcnt e') :
    weight e / (joinNodes place (inversePerm shape.numLogicalExperts place) shape.logPerNode shape.phyPerNode
        node).logcnt e ≤
      weight e' / ((joinNodes place (inversePerm shape.numLogicalExperts place) shape.logPerNode shape.phyPerNode
        node).logcnt e' - 1 : Nat) := by
  have hcount : ∀ e m, place e = i * shape.logPerNode + m → m < shape.logPerNode →
      (joinNodes place (inversePerm shape.numLogicalExperts place) shape.logPerNode shape.phyPerNode node).logcnt e =
        (node i).logcnt m := fun e m hat hm => by
    show (node (place e / _)).logcnt (place e % _) = _
    rw [hat, place_div hm, place_mod hm]
  have hinside : ∀ m < shape.logPerNode, i * shape.logPerNode + m < shape.numLogicalExperts := fun m hm => by
    rw [shape.numLogicalExperts_eq, Nat.mul_comm shape.logPerNode]
    exact place_lt hi hm
  have hlast := ((h.each i hi).heaviest fun m hm => hweight _ (inversePerm_right hplace (hinside m hm)).1).last m'
    (Finset.mem_range.mpr hm') (hcount e' m' hat' hm' ▸ htwo) m (Finset.mem_range.mpr hm)
  rw [← hat, ← hat', inversePerm_left hplace he, inversePerm_left hplace he'] at hlast
  rwa [hcount e m hat hm, hcount e' m' hat' hm']

/-- What the three maps of a layer say together. -/
structure LayerBalanced (shape : BalanceShape) (weight : Nat → Rat) (replicas : Replicas) : Prop where
  replicated : Replicated shape.numLogicalExperts shape.numPhysicalExperts replicas
  /-- The experts of a group are on one node. -/
  sameNode : ∀ p < shape.numPhysicalExperts, ∀ p' < shape.numPhysicalExperts,
    replicas.phy2log p / shape.groupSize = replicas.phy2log p' / shape.groupSize →
      p / shape.phyPerNode = p' / shape.phyPerNode
  /-- On a node the last replica of an expert went where the load was highest. -/
  even : (∀ e < shape.numLogicalExperts, 0 ≤ weight e) → ∀ p < shape.numPhysicalExperts,
    ∀ p' < shape.numPhysicalExperts, p / shape.phyPerNode = p' / shape.phyPerNode →
      2 ≤ replicas.logcnt (replicas.phy2log p') → weight (replicas.phy2log p) / replicas.logcnt (replicas.phy2log p) ≤
        weight (replicas.phy2log p') / (replicas.logcnt (replicas.phy2log p') - 1 : Nat)

theorem rebalanceExpertsHierarchical_ok (sort : DescendingSort) (shape : BalanceShape) (weight : Nat → Rat) :
    ∃ replicas, rebalanceExpertsHierarchical sort shape.numLogicalExperts weight shape.numPhysicalExperts
      shape.numGroups shape.numNodes shape.numGpus = .ok replicas ∧ LayerBalanced shape weight replicas := by
  have hgroupsPerNode : 0 < shape.groupsPerNode := Nat.pos_of_mul_pos_left shape.logPerNode_pos
  have hgroups : 0 < shape.numGroups := Nat.mul_pos hgroupsPerNode shape.numNodes_pos
  have hgpus : 0 < shape.numGpus := Nat.mul_pos shape.gpusPerNode_pos shape.numNodes_pos
  obtain ⟨packing, hpacking, hpacks⟩ := balancedPacking_ok sort
    (fun group => ((List.range shape.groupSize).map fun i => weight (group * shape.groupSize + i)).sum)
    shape.numNodes_pos (show shape.numGroups = _ from rfl)
  let place := log2mlog shape.groupSize shape.groupsPerNode packing
  have hplace : PermutesBelow shape.numLogicalExperts place := log2mlog_permutes hpacks
  have hlog : shape.numLogicalExperts / shape.numNodes = shape.logPerNode := by
    rw [shape.numLogicalExperts_eq, Nat.mul_div_cancel _ shape.numNodes_pos]
  have hphy : shape.numPhysicalExperts / shape.numNodes = shape.phyPerNode := by
    rw [shape.numPhysicalExperts_eq, Nat.mul_div_cancel _ shape.numNodes_pos]
  have hnode : ∀ i ∈ List.range shape.numNodes, ∃ replicas, balanceNode sort shape.logPerNode
      (fun m => weight (inversePerm shape.numLogicalExperts place (i * shape.logPerNode + m))) shape.phyPerNode
      shape.gpusPerNode shape.room = .ok replicas := fun i _ => by
    obtain ⟨replicas, hrun, -⟩ := balanceNode_ok sort
      (fun m => weight (inversePerm shape.numLogicalExperts place (i * shape.logPerNode + m))) shape.logPerNode_pos
      shape.enough shape.gpusPerNode_pos rfl
    exact ⟨replicas, hrun⟩
  obtain ⟨nodes, hnodes⟩ := mapM_exists hnode
  obtain ⟨hlen, hget⟩ := mapM_ok hnodes
  rw [List.length_range] at hlen
  have heach : NodesReplicated shape weight (inversePerm shape.numLogicalExperts place)
      fun i => nodes.getD i ⟨fun _ => 0, fun _ => 0, fun _ => 0⟩ := ⟨fun i hi => by
    have hrun := hget i (by rwa [List.length_range]) (hlen ▸ hi)
    rw [List.getElem_range] at hrun
    obtain ⟨replicas, hrun', h⟩ := balanceNode_ok sort
      (fun m => weight (inversePerm shape.numLogicalExperts place (i * shape.logPerNode + m))) shape.logPerNode_pos
      shape.enough shape.gpusPerNode_pos rfl
    rwa [List.getD_eq_getElem _ _ (hlen ▸ hi), Except.ok.inj (hrun.symm.trans hrun')]⟩
  refine ⟨_, ?_, joinNodes_replicated hplace heach, fun p hp p' hp' hgroup => ?_,
    fun hweight p hp p' hp' hsame htwo => ?_⟩
  · have hgroupSize : divisible shape.numLogicalExperts shape.numGroups = .ok shape.groupSize :=
      divisible_ok hgroups _ rfl
    have hperNode : divisible shape.numGroups shape.numNodes = .ok shape.groupsPerNode :=
      divisible_ok shape.numNodes_pos _ rfl
    have hgpusPerNode : divisible shape.numGpus shape.numNodes = .ok shape.gpusPerNode :=
      divisible_ok shape.numNodes_pos _ rfl
    have hroom : divisible shape.numPhysicalExperts shape.numGpus = .ok shape.room := divisible_ok hgpus _ rfl
    simp only [rebalanceExpertsHierarchical, hgroupSize, hperNode, hgpusPerNode, hroom, hpacking, hlog, hphy, bind,
      Except.bind, pure, Except.pure]
    rw [show (List.range shape.numNodes).mapM _ = _ from hnodes]
  · obtain ⟨hlt, hat, hlocal⟩ := place_phy2log hplace heach hp
    obtain ⟨hlt', hat', hlocal'⟩ := place_phy2log hplace heach hp'
    have hpack := log2mlog_node hpacks hlt
    have hpack' := log2mlog_node hpacks hlt'
    rw [show log2mlog _ _ packing _ = _ from hat, place_div hlocal] at hpack
    rw [show log2mlog _ _ packing _ = _ from hat', place_div hlocal'] at hpack'
    rw [hgroup, ← hpack'] at hpack
    exact_mod_cast hpack
  · obtain ⟨hlt, hat, hlocal⟩ := place_phy2log hplace heach hp
    obtain ⟨hlt', hat', hlocal'⟩ := place_phy2log hplace heach hp'
    exact heach.even hplace hweight (node_of_lt shape hp') hlt hlt' (hsame ▸ hat) hat' hlocal hlocal' htwo

end Hierarchical

end QCFuse.Guarantees
