import Mathlib.Data.List.Perm.Subperm
import QCFuse.Library.Transition
import QCFuse.Source.LoraManager
import QCFuse.Source.Python

/-!
# LoRA adapters stay consistent

The three dictionaries of the manager, its count of pinned adapters and the two maps of the memory
pool, over loads, unloads and batches. A load that fails after its configuration was stored is the
exception: nothing takes the entry back.
-/

set_option autoImplicit false

namespace QCFuse.Guarantees

open QCFuse.Library QCFuse.Source

inductive LoraLabel where
  | load (ref : LoraRef) (config : Except LoraError LoraConfig)
      (layers : Except LoraError (List (List (String × Shape))))
  | unload (ref : LoraRef)
  | initMemoryPool (buffers : LoraBuffers) (policy : PolicyName)
  | batch (loraIds curUids : List (Option String))

/-- `curUids` is the set of `loraIds`, in some order. -/
def Enumerates (curUids loraIds : List (Option String)) : Prop :=
  curUids.Nodup ∧ ∀ uid, uid ∈ curUids ↔ uid ∈ loraIds

namespace LoraManager

/-- A failed assertion leaves the manager as it is; a batch that fails ends the run. -/
def step : LoraLabel → LoraManager → Option LoraManager
  | .load ref config layers, m =>
    match m.loadLoraAdapter ref config layers with
    | .ok (_, m') => some m'
    | .error _ => some m
  | .unload ref, m =>
    match m.unloadLoraAdapter ref with
    | .ok (_, m') => some m'
    | .error _ => some m
  | .initMemoryPool buffers policy, m =>
    some { m with memoryPool := some (LoraMemoryPool.new buffers m.maxLorasPerBatch policy) }
  | .batch loraIds curUids, m =>
    match m.validateLoraBatch curUids with
    | .ok true => (m.prepareLoraBatch loraIds curUids).toOption.map Prod.snd
    | _ => some m

end LoraManager

def loraMachine : Machine LoraManager LoraLabel where
  step := LoraManager.step

/-- The load reaches the weights. -/
structure ReachesWeights (m : LoraManager) (ref : LoraRef) (config : Except LoraError LoraConfig) : Prop where
  named : ref.loraName.isSome = true ∧ ref.loraPath.isSome = true
  fresh : ref.loraId ∉ m.loras.keys
  pinned : m.tooManyPinned ref = false
  config : ∃ newAdapter, config = .ok newAdapter ∧ m.validateNewAdapter newAdapter ref = .ok ()

/-- Weights that are asked for can be read, and a new adapter says whether it is pinned; the weights
of a loaded adapter fit the buffers when a batch uses it. -/
def Loadable (m : LoraManager) : LoraLabel → Prop
  | .load ref config layers => ReachesWeights m ref config → (∃ l, layers = .ok l) ∧ ref.pinned ≠ none
  | .batch loraIds curUids => Enumerates curUids loraIds ∧ ∀ pool, m.memoryPool = some pool →
      ∀ name adapter, some name ∈ loraIds → m.loras.get? name = some adapter →
        pool.buffers.loadLoraWeightToBuffer (some name) (some adapter) = .ok ()
  | _ => True

structure LoraIntegrity (m : LoraManager) : Prop where
  configs : ∀ id, id ∈ m.configs.keys ↔ id ∈ m.loras.keys
  loraRefs : ∀ id, id ∈ m.loraRefs.keys ↔ id ∈ m.loras.keys
  numPinned : m.numPinnedLoras = (m.loraRefs.entries.countP fun e => e.2.pinned = some true : Nat)
  inverse : ∀ pool, m.memoryPool = some pool → ∀ uid bufferId,
    pool.uidToBufferId.get? uid = some bufferId ↔ pool.bufferIdToUid[bufferId]? = some (some uid)

/-- Every id of the batch has a slot; adapters of the batch and pinned ones kept theirs. -/
structure BatchPrepared (m m' : LoraManager) (loraIds : List (Option String)) : Prop where
  slots : ∃ pool, m'.memoryPool = some pool ∧ ∀ uid ∈ loraIds, ∃ bufferId,
    pool.uidToBufferId.get? uid = some bufferId ∧ pool.bufferIdToUid[bufferId]? = some (some uid)
  kept : ∀ pool pool', m.memoryPool = some pool → m'.memoryPool = some pool' → ∀ uid bufferId,
    pool.uidToBufferId.get? uid = some bufferId →
    (uid ∈ loraIds ∨ LoraMemoryPool.isPinned m.loraRefs uid = true) →
    pool'.uidToBufferId.get? uid = some bufferId

/-! ## The memory pool -/

/-- The two maps are inverse, and the policy knows every adapter in a slot. -/
structure PoolInv (maxLoras : Nat) (pool : LoraMemoryPool) : Prop where
  size : pool.bufferIdToUid.length = maxLoras
  inverse : ∀ uid bufferId,
    pool.uidToBufferId.get? uid = some bufferId ↔ pool.bufferIdToUid[bufferId]? = some (some uid)
  tracked : ∀ uid, some (some uid) ∈ pool.bufferIdToUid → uid ∈ pool.evictionPolicy.order

namespace PoolInv

variable {maxLoras : Nat} {pool : LoraMemoryPool}

theorem mem_iff (h : PoolInv maxLoras pool) (uid : Option String) :
    uid ∈ pool.uidToBufferId.keys ↔ some uid ∈ pool.bufferIdToUid := by
  rw [Dict.mem_keys_iff, List.mem_iff_getElem?]
  exact exists_congr fun bufferId => h.inverse uid bufferId

/-- Full slots hold different adapters. -/
theorem slots_nodup (h : PoolInv maxLoras pool) (hfull : ∀ slot ∈ pool.bufferIdToUid, slot ≠ none) :
    pool.bufferIdToUid.Nodup := by
  refine List.nodup_iff_getElem?_ne_getElem?.mpr fun i j hij hj heq => ?_
  rw [List.getElem?_eq_getElem hj] at heq
  obtain ⟨uid, huid⟩ := Option.ne_none_iff_exists'.mp (hfull _ (List.getElem_mem hj))
  rw [huid] at heq
  have hi := (h.inverse uid i).mpr heq
  rw [(h.inverse uid j).mpr (by rw [List.getElem?_eq_getElem hj, huid])] at hi
  exact Nat.ne_of_lt hij (Option.some.inj hi).symm

/-- A slot that holds nothing takes an adapter that has no slot. -/
theorem put (h : PoolInv maxLoras pool) {uid : Option String} {bufferId : Nat}
    (hempty : pool.bufferIdToUid[bufferId]? = some none) (hnew : uid ∉ pool.uidToBufferId.keys)
    (htracked : ∀ name, uid = some name → name ∈ pool.evictionPolicy.order) :
    PoolInv maxLoras { pool with
      uidToBufferId := pool.uidToBufferId.set uid bufferId
      bufferIdToUid := pool.bufferIdToUid.set bufferId (some uid) } := by
  have hlt : bufferId < pool.bufferIdToUid.length := (List.getElem?_eq_some_iff.mp hempty).1
  refine ⟨?_, fun other id => ?_, fun name hname => ?_⟩
  · rw [List.length_set]
    exact h.size
  · simp only
    by_cases hother : other = uid
    · subst hother
      rw [Dict.get?_set_self, Option.some.injEq]
      constructor
      · rintro rfl
        rw [List.getElem?_set_self hlt]
      · intro hslot
        by_contra hne
        rw [List.getElem?_set_ne hne] at hslot
        exact hnew ((h.mem_iff other).mpr (List.mem_of_getElem? hslot))
    · rw [Dict.get?_set_ne _ _ hother, h.inverse]
      by_cases hid : bufferId = id
      · subst hid
        rw [hempty, List.getElem?_set_self hlt]
        simp [Ne.symm hother]
      · rw [List.getElem?_set_ne hid]
  · rcases List.mem_or_eq_of_mem_set hname with hold | heq
    · exact h.tracked name hold
    · exact htracked name (Option.some.inj heq).symm

/-- Eviction empties the victim's slot and touches no other. -/
theorem evict (h : PoolInv maxLoras pool) {victim : Option String} {bufferId : Nat}
    (hvictim : pool.uidToBufferId.get? victim = some bufferId) :
    PoolInv maxLoras { pool with
      uidToBufferId := pool.uidToBufferId.erase victim
      evictionPolicy := pool.evictionPolicy.remove victim
      bufferIdToUid := pool.bufferIdToUid.set bufferId none } := by
  have hslot := (h.inverse victim bufferId).mp hvictim
  have hlt : bufferId < pool.bufferIdToUid.length := (List.getElem?_eq_some_iff.mp hslot).1
  have hinverse : ∀ uid id, (pool.uidToBufferId.erase victim).get? uid = some id ↔
      (pool.bufferIdToUid.set bufferId none)[id]? = some (some uid) := by
    intro uid id
    by_cases hid : bufferId = id
    · subst hid
      rw [List.getElem?_set_self hlt]
      by_cases huid : uid = victim
      · rw [huid, Dict.get?_erase_self]
        simp
      · rw [Dict.get?_erase_ne _ huid, h.inverse, hslot]
        simp [Ne.symm huid]
    · rw [List.getElem?_set_ne hid, ← h.inverse]
      by_cases huid : uid = victim
      · rw [huid, Dict.get?_erase_self, hvictim]
        simp [hid]
      · rw [Dict.get?_erase_ne _ huid]
  refine ⟨by rw [List.length_set]; exact h.size, hinverse, fun name hname => ?_⟩
  have hname' : some (some name) ∈ pool.bufferIdToUid.set bufferId none := hname
  have hold : some (some name) ∈ pool.bufferIdToUid := by
    rcases List.mem_or_eq_of_mem_set hname' with hold | heq
    · exact hold
    · cases heq
  have horder := h.tracked name hold
  cases victim with
  | none => exact horder
  | some victim =>
    obtain ⟨id, hid⟩ := List.mem_iff_getElem?.mp hname'
    have hget := (hinverse (some name) id).mpr hid
    have hne : name ≠ victim := by
      rintro rfl
      rw [Dict.get?_erase_self] at hget
      cases hget
    exact (List.mem_erase_of_ne hne).mpr horder

end PoolInv

theorem mem_order_remove {policy : LoraEvictionPolicy} {name : String} {victim : Option String}
    (h : name ∈ policy.order) (hne : victim ≠ some name) : name ∈ (policy.remove victim).order := by
  cases victim with
  | none => exact h
  | some victim => exact (List.mem_erase_of_ne fun heq => hne (by rw [heq])).mpr h

/-! ## Slots for a batch -/

/-- The pinned adapters. -/
def pinnedUids (loraRefs : Dict String LoraRef) : List (Option String) :=
  (loraRefs.entries.filter fun e => e.2.pinned = some true).map fun e => some e.1

theorem mem_pinnedUids (loraRefs : Dict String LoraRef) (uid : Option String) :
    uid ∈ pinnedUids loraRefs ↔ LoraMemoryPool.isPinned loraRefs uid = true := by
  cases uid with
  | none => simp [pinnedUids, LoraMemoryPool.isPinned]
  | some name =>
    simp only [pinnedUids, LoraMemoryPool.isPinned, List.mem_map, List.mem_filter, decide_eq_true_eq,
      Option.some.injEq]
    constructor
    · rintro ⟨e, ⟨he, hpinned⟩, rfl⟩
      rw [(loraRefs.get?_eq_some_iff e.1 e.2).mpr he]
      simpa using hpinned
    · intro h
      cases hget : loraRefs.get? name with
      | none =>
        rw [hget] at h
        cases h
      | some ref =>
        rw [hget] at h
        exact ⟨(name, ref), ⟨(loraRefs.get?_eq_some_iff name ref).mp hget, by simpa using h⟩, rfl⟩

theorem pinnedUids_nodup (loraRefs : Dict String LoraRef) : (pinnedUids loraRefs).Nodup := by
  have hkeys : ((loraRefs.entries.filter fun e => e.2.pinned = some true).map Prod.fst).Nodup :=
    loraRefs.nodup.sublist (List.filter_sublist.map Prod.fst)
  have hmap := hkeys.map (Option.some_injective String)
  rwa [List.map_map] at hmap

local instance uid_lawfulBEq : LawfulBEq (Option String) := Option.instLawfulBEq String

/-- Slots for the batch and for the pinned adapters outside it. -/
def Room (maxLoras : Nat) (curUids : List (Option String)) (loraRefs : Dict String LoraRef) : Prop :=
  curUids.length + ((pinnedUids loraRefs).filter (· ∉ curUids)).length ≤ maxLoras

/-- What is done for one adapter of a batch does not touch those that stay. -/
def KeepsBatch (curUids : List (Option String)) (loraRefs : Dict String LoraRef) (pool pool' : LoraMemoryPool) :
    Prop :=
  ∀ uid bufferId, pool.uidToBufferId.get? uid = some bufferId →
    (uid ∈ curUids ∨ LoraMemoryPool.isPinned loraRefs uid = true) → pool'.uidToBufferId.get? uid = some bufferId

section Batch

variable {maxLoras : Nat} {pool : LoraMemoryPool} {curUids : List (Option String)} {loraRefs : Dict String LoraRef}
  {loraAdapters : Dict String LoraAdapter}

/-- A full pool has something to evict while an adapter of the batch has no slot. -/
theorem candidates_ne_nil (h : PoolInv maxLoras pool) (hroom : Room maxLoras curUids loraRefs)
    {uid : Option String} (huid : uid ∈ curUids) (hnew : uid ∉ pool.uidToBufferId.keys)
    (hfull : ∀ slot ∈ pool.bufferIdToUid, slot ≠ none) : pool.candidates curUids loraRefs ≠ [] := by
  intro hnil
  have hreserved : pool.bufferIdToUid ⊆
      (curUids.erase uid ++ (pinnedUids loraRefs).filter (· ∉ curUids)).map some := by
    intro slot hslot
    obtain ⟨other, rfl⟩ := Option.ne_none_iff_exists'.mp (hfull slot hslot)
    refine List.mem_map_of_mem (List.mem_append.mpr ?_)
    by_cases hcur : other ∈ curUids
    · refine Or.inl ((List.mem_erase_of_ne ?_).mpr hcur)
      rintro rfl
      exact hnew ((h.mem_iff other).mpr hslot)
    · refine Or.inr (List.mem_filter.mpr ⟨(mem_pinnedUids loraRefs other).mpr ?_, decide_eq_true hcur⟩)
      by_contra hpinned
      have hcand : other ∈ pool.candidates curUids loraRefs := by
        rw [LoraMemoryPool.candidates, List.mem_filter, List.reduceOption_mem_iff]
        exact ⟨hslot, decide_eq_true ⟨hcur, Bool.not_eq_true _ ▸ hpinned⟩⟩
      rw [hnil] at hcand
      cases hcand
  have hle := (List.subperm_of_subset (h.slots_nodup hfull) hreserved).length_le
  have hpos := List.length_pos_of_mem huid
  rw [h.size, List.length_map, List.length_append, List.length_erase_of_mem huid] at hle
  unfold Room at hroom
  omega

theorem select_victim (h : PoolInv maxLoras pool) (hne : pool.candidates curUids loraRefs ≠ []) :
    ∃ victim bufferId, pool.evictionPolicy.selectVictim (pool.candidates curUids loraRefs) = .ok victim ∧
      victim ∈ pool.candidates curUids loraRefs ∧ pool.uidToBufferId.get? victim = some bufferId := by
  have hslot : ∀ uid ∈ pool.candidates curUids loraRefs, ∃ bufferId,
      pool.uidToBufferId.get? uid = some bufferId := by
    intro uid huid
    rw [← Dict.mem_keys_iff, h.mem_iff]
    exact List.reduceOption_mem_iff.mp (List.mem_filter.mp huid).1
  unfold LoraEvictionPolicy.selectVictim
  split
  next hbase =>
    obtain ⟨bufferId, hbuffer⟩ := hslot none hbase
    exact ⟨none, bufferId, rfl, hbase, hbuffer⟩
  next hbase =>
    obtain ⟨uid, huid⟩ := List.exists_mem_of_ne_nil _ hne
    cases uid with
    | none => exact absurd huid hbase
    | some name =>
      have hmem := List.reduceOption_mem_iff.mp (List.mem_filter.mp huid).1
      cases hfind : pool.evictionPolicy.order.find? fun name => decide (some name ∈ pool.candidates curUids loraRefs) with
      | none =>
        have hnot := List.find?_eq_none.mp hfind name (h.tracked name hmem)
        simp [huid] at hnot
      | some victim =>
        have hvictim := List.find?_some hfind
        obtain ⟨bufferId, hbuffer⟩ := hslot (some victim) (of_decide_eq_true hvictim)
        exact ⟨some victim, bufferId, rfl, of_decide_eq_true hvictim, hbuffer⟩

theorem available_slot (h : PoolInv maxLoras pool) (hroom : Room maxLoras curUids loraRefs)
    (htracked : ∀ name, some name ∈ curUids → name ∈ pool.evictionPolicy.order)
    {uid : Option String} (huid : uid ∈ curUids) (hnew : uid ∉ pool.uidToBufferId.keys) :
    ∃ bufferId pool', pool.getAvailableBufferSlot curUids loraRefs = .ok (bufferId, pool') ∧
      pool'.bufferIdToUid[bufferId]? = some none ∧ PoolInv maxLoras pool' ∧ pool'.buffers = pool.buffers ∧
      uid ∉ pool'.uidToBufferId.keys ∧ KeepsBatch curUids loraRefs pool pool' ∧
      ∀ name, some name ∈ curUids → name ∈ pool'.evictionPolicy.order := by
  unfold LoraMemoryPool.getAvailableBufferSlot
  split
  next bufferId hempty =>
    obtain ⟨hlt, hnone, -⟩ := List.findIdx?_eq_some_iff_getElem.mp hempty
    refine ⟨bufferId, pool, rfl, ?_, h, rfl, hnew, fun _ _ hget _ => hget, htracked⟩
    rw [List.getElem?_eq_getElem hlt, Option.isNone_iff_eq_none.mp hnone]
  next hnone =>
    have hfull : ∀ slot ∈ pool.bufferIdToUid, slot ≠ none := by
      intro slot hslot heq
      have := List.findIdx?_eq_none_iff.mp hnone slot hslot
      rw [heq] at this
      cases this
    have hne := candidates_ne_nil h hroom huid hnew hfull
    obtain ⟨victim, bufferId, hselect, hcand, hbuffer⟩ := select_victim h hne
    obtain ⟨hout, hpinned⟩ := of_decide_eq_true (List.mem_filter.mp hcand).2
    rw [if_neg hne]
    simp only [hselect, hbuffer, bind, Except.bind]
    have hlt : bufferId < pool.bufferIdToUid.length :=
      (List.getElem?_eq_some_iff.mp ((h.inverse victim bufferId).mp hbuffer)).1
    refine ⟨bufferId, _, rfl, List.getElem?_set_self hlt, h.evict hbuffer, rfl, ?_, fun other id hget hstay => ?_,
      fun name hname => mem_order_remove (htracked name hname) fun heq => hout (heq ▸ hname)⟩
    · rw [Dict.mem_keys_erase]
      exact fun hmem => hnew hmem.2
    · have hneq : other ≠ victim := by
        rintro rfl
        rcases hstay with hcur | hpin
        · exact hout hcur
        · rw [hpinned] at hpin
          cases hpin
      exact (Dict.get?_erase_ne _ hneq).trans hget

/-- What the second loop keeps, with the adapters of `seen` in their slots. -/
structure Preparing (maxLoras : Nat) (curUids : List (Option String)) (loraRefs : Dict String LoraRef)
    (start pool : LoraMemoryPool) (seen : List (Option String)) : Prop where
  inv : PoolInv maxLoras pool
  buffers : pool.buffers = start.buffers
  tracked : ∀ name, some name ∈ curUids → name ∈ pool.evictionPolicy.order
  kept : KeepsBatch curUids loraRefs start pool
  placed : ∀ uid ∈ seen, uid ∈ pool.uidToBufferId.keys

theorem Preparing.uid {start : LoraMemoryPool} {seen : List (Option String)}
    (h : Preparing maxLoras curUids loraRefs start pool seen) (hroom : Room maxLoras curUids loraRefs)
    (hseen : seen ⊆ curUids) {uid : Option String} (huid : uid ∈ curUids)
    (hload : start.buffers.loadLoraWeightToBuffer uid (uid.bind loraAdapters.get?) = .ok ()) :
    ∃ pool', pool.prepareUid curUids loraAdapters loraRefs uid = .ok pool' ∧
      Preparing maxLoras curUids loraRefs start pool' (seen ++ [uid]) := by
  unfold LoraMemoryPool.prepareUid
  split
  next hin =>
    refine ⟨pool, rfl, h.inv, h.buffers, h.tracked, h.kept, fun other hother => ?_⟩
    rcases List.mem_append.mp hother with hold | hnew
    · exact h.placed other hold
    · rw [List.mem_singleton.mp hnew]
      exact hin
  next hnew =>
    obtain ⟨bufferId, pool', hslot, hempty, hinv, hbuffers, hnot, hkeeps, htracked⟩ :=
      available_slot h.inv hroom h.tracked huid hnew
    have hload' : pool'.buffers.loadLoraWeightToBuffer uid (uid.bind loraAdapters.get?) = .ok () := by
      rw [hbuffers, h.buffers]
      exact hload
    simp only [hslot, hload', bind, Except.bind, pure, Except.pure]
    refine ⟨_, rfl, hinv.put hempty hnot fun name hname => htracked name (hname ▸ huid),
      hbuffers.trans h.buffers, htracked, fun other id hget hstay => ?_, fun other hother => ?_⟩
    · have hstep := hkeeps other id (h.kept other id hget hstay) hstay
      have hne : other ≠ uid := by
        rintro rfl
        exact hnot ((Dict.mem_keys_iff _ _).mpr ⟨id, hstep⟩)
      exact (Dict.get?_set_ne _ _ hne).trans hstep
    · rw [Dict.mem_keys_set]
      rcases List.mem_append.mp hother with hold | hlast
      · obtain ⟨id, hget⟩ := (Dict.mem_keys_iff _ _).mp (h.placed other hold)
        exact Or.inr ((Dict.mem_keys_iff _ _).mpr ⟨id, hkeeps other id hget (Or.inl (hseen hold))⟩)
      · exact Or.inl (List.mem_singleton.mp hlast)

theorem Preparing.loop {start : LoraMemoryPool} {seen : List (Option String)} (rest : List (Option String))
    (h : Preparing maxLoras curUids loraRefs start pool seen) (hroom : Room maxLoras curUids loraRefs)
    (hseen : seen ⊆ curUids) (hrest : rest ⊆ curUids)
    (hload : ∀ uid ∈ curUids, start.buffers.loadLoraWeightToBuffer uid (uid.bind loraAdapters.get?) = .ok ()) :
    ∃ pool', rest.foldlM (LoraMemoryPool.prepareUid curUids loraAdapters loraRefs) pool = .ok pool' ∧
      Preparing maxLoras curUids loraRefs start pool' (seen ++ rest) := by
  induction rest generalizing pool seen with
  | nil => exact ⟨pool, rfl, by rwa [List.append_nil]⟩
  | cons uid rest ih =>
    obtain ⟨huid, hrest'⟩ := List.cons_subset.mp hrest
    obtain ⟨next, hrun, hnext⟩ := h.uid hroom hseen huid (hload uid huid)
    obtain ⟨pool', hrun', hpool'⟩ := ih hnext
      (List.append_subset.mpr ⟨hseen, List.cons_subset.mpr ⟨huid, List.nil_subset _⟩⟩) hrest'
    refine ⟨pool', ?_, ?_⟩
    · rw [List.foldlM_cons, hrun]
      exact hrun'
    · rwa [List.append_assoc, List.singleton_append] at hpool'

theorem mem_order_markUsed (policy : LoraEvictionPolicy) (uid : Option String) (name : String) :
    name ∈ (policy.markUsed uid).order ↔ name ∈ policy.order ∨ uid = some name := by
  cases uid with
  | none => simp [LoraEvictionPolicy.markUsed]
  | some other =>
    unfold LoraEvictionPolicy.markUsed
    rw [Option.some.injEq]
    cases policy.name with
    | lru =>
      simp only [List.mem_append, List.mem_singleton]
      by_cases heq : name = other
      · simp [heq]
      · rw [List.mem_erase_of_ne heq, eq_comm]
    | fifo =>
      simp only
      split
      next hin => exact ⟨Or.inl, fun h => h.elim id fun heq => heq ▸ hin⟩
      next => rw [List.mem_append, List.mem_singleton, eq_comm]

theorem mem_order_markAll (policy : LoraEvictionPolicy) (uids : List (Option String)) (name : String) :
    name ∈ (uids.foldl LoraEvictionPolicy.markUsed policy).order ↔ name ∈ policy.order ∨ some name ∈ uids := by
  induction uids generalizing policy with
  | nil => simp
  | cons uid uids ih => rw [List.foldl_cons, ih, mem_order_markUsed, List.mem_cons, or_assoc, eq_comm (a := uid)]

theorem pool_prepared (h : PoolInv maxLoras pool) (hroom : Room maxLoras curUids loraRefs)
    (hload : ∀ uid ∈ curUids, pool.buffers.loadLoraWeightToBuffer uid (uid.bind loraAdapters.get?) = .ok ()) :
    ∃ pool', pool.prepareLoraBatch curUids loraAdapters loraRefs = .ok pool' ∧ PoolInv maxLoras pool' ∧
      KeepsBatch curUids loraRefs pool pool' ∧ ∀ uid ∈ curUids, uid ∈ pool'.uidToBufferId.keys := by
  have hstart : Preparing maxLoras curUids loraRefs pool
      { pool with evictionPolicy := curUids.foldl LoraEvictionPolicy.markUsed pool.evictionPolicy } [] :=
    ⟨⟨h.size, h.inverse, fun name hname => (mem_order_markAll _ _ _).mpr (Or.inl (h.tracked name hname))⟩, rfl,
      fun name hname => (mem_order_markAll _ _ _).mpr (Or.inr hname), fun _ _ hget _ => hget,
      fun _ hmem => absurd hmem List.not_mem_nil⟩
  obtain ⟨pool', hrun, hpool'⟩ :=
    hstart.loop curUids hroom (List.nil_subset _) (List.Subset.refl _) hload
  exact ⟨pool', hrun, hpool'.inv, hpool'.kept, hpool'.placed⟩

end Batch

/-! ## The manager -/

/-- The manager's own invariant: entries are stored under their own id and say whether they are pinned. -/
structure ManagerInv (m : LoraManager) : Prop where
  configs : ∀ id, id ∈ m.configs.keys ↔ id ∈ m.loras.keys
  loraRefs : ∀ id, id ∈ m.loraRefs.keys ↔ id ∈ m.loras.keys
  numPinned : m.numPinnedLoras = (m.loraRefs.entries.countP fun e => e.2.pinned = some true : Nat)
  keyed : ∀ id ref, m.loraRefs.get? id = some ref → ref.loraId = id ∧ ref.pinned ≠ none
  pool : ∀ pool, m.memoryPool = some pool → PoolInv m.maxLorasPerBatch pool

/-- Every turn of a loop that returned did. -/
theorem foldlM_mem {ε α β : Type} {f : β → α → Except ε β} {xs : List α} {start stop : β}
    (h : xs.foldlM f start = .ok stop) {x : α} (hx : x ∈ xs) : ∃ before after, f before x = .ok after := by
  induction xs generalizing start with
  | nil => cases hx
  | cons y ys ih =>
    rw [List.foldlM_cons] at h
    obtain ⟨next, hnext, hrest⟩ := bind_ok h
    rcases List.mem_cons.mp hx with rfl | hmem
    · exact ⟨start, next, hnext⟩
    · exact ih hrest hmem

namespace ManagerInv

variable {m : LoraManager}

theorem integrity (h : ManagerInv m) : LoraIntegrity m :=
  ⟨h.configs, h.loraRefs, h.numPinned, fun pool hpool => (h.pool pool hpool).inverse⟩

theorem pinnedUids_length (h : ManagerInv m) : ((pinnedUids m.loraRefs).length : Int) = m.numPinnedLoras := by
  rw [h.numPinned, pinnedUids, List.length_map, List.countP_eq_length_filter]

theorem countPinned_ok (h : ManagerInv m) {curUids : List (Option String)} {count n : Int}
    (hcount : curUids.foldlM m.countPinned count = .ok n) :
    n = count + (curUids.countP (LoraMemoryPool.isPinned m.loraRefs) : Nat) := by
  induction curUids generalizing count with
  | nil =>
    cases hcount
    simp
  | cons uid curUids ih =>
    rw [List.foldlM_cons] at hcount
    obtain ⟨next, hnext, hrest⟩ := bind_ok hcount
    rw [ih hrest, List.countP_cons]
    cases uid with
    | none =>
      cases hnext
      simp [LoraMemoryPool.isPinned]
    | some name =>
      cases href : m.loraRefs.get? name with
      | none =>
        simp only [LoraManager.countPinned, href] at hnext
        cases hnext
      | some ref =>
        obtain ⟨pinned, hpinned⟩ := Option.ne_none_iff_exists'.mp (h.keyed name ref href).2
        simp only [LoraManager.countPinned, href, LoraRef.pinnedInt, hpinned, Except.map] at hnext
        cases hnext
        cases pinned with
        | false => simp [LoraMemoryPool.isPinned, href, hpinned]
        | true =>
          simp only [LoraMemoryPool.isPinned, href, hpinned, Option.map_some, decide_true, Option.getD_some, if_true,
            Bool.toInt_true]
          omega

/-- An accepted batch fits beside the pinned adapters outside it. -/
theorem room (h : ManagerInv m) {pool : LoraMemoryPool} (hpool : m.memoryPool = some pool)
    {curUids : List (Option String)} (hnodup : curUids.Nodup) (hvalid : m.validateLoraBatch curUids = .ok true) :
    Room m.maxLorasPerBatch curUids m.loraRefs := by
  have hpinned := h.pinnedUids_length
  unfold LoraManager.validateLoraBatch at hvalid
  split at hvalid
  next => cases hvalid
  next hlen =>
    split at hvalid
    next hzero =>
      have hout := List.length_filter_le (· ∉ curUids) (pinnedUids m.loraRefs)
      unfold Room
      omega
    next =>
      obtain ⟨n, hn, hcheck⟩ := bind_ok hvalid
      split at hcheck
      next => cases hcheck
      next =>
        rw [hpool] at hcheck
        simp only [Except.ok.injEq, decide_eq_true_eq, (h.pool pool hpool).size] at hcheck
        have hcount := h.countPinned_ok hn
        have hinside : curUids.countP (LoraMemoryPool.isPinned m.loraRefs) ≤
            ((pinnedUids m.loraRefs).filter (· ∈ curUids)).length := by
          rw [List.countP_eq_length_filter]
          refine (List.subperm_of_subset (hnodup.filter _) fun uid huid => ?_).length_le
          obtain ⟨hcur, hpin⟩ := List.mem_filter.mp huid
          exact List.mem_filter.mpr ⟨(mem_pinnedUids _ uid).mpr hpin, decide_eq_true hcur⟩
        have hsplit := List.length_eq_length_filter_add (l := pinnedUids m.loraRefs) fun uid => decide (uid ∈ curUids)
        unfold Room
        simp only [decide_not]
        omega

theorem batch_entries {pool : LoraMemoryPool} (hpool : PoolInv m.maxLorasPerBatch pool)
    {loraIds : List (Option String)} (hplaced : ∀ uid ∈ loraIds, uid ∈ pool.uidToBufferId.keys)
    (hloaded : ∀ name, some name ∈ loraIds → name ∈ m.loras.keys) {info : LoraBatchInfo}
    (hinfo : info.loraRanks.length = m.maxLorasPerBatch) :
    ∃ info', loraIds.foldlM (m.batchEntry pool) info = .ok info' := by
  induction loraIds generalizing info with
  | nil => exact ⟨info, rfl⟩
  | cons uid loraIds ih =>
    obtain ⟨bufferId, hbuffer⟩ := (Dict.mem_keys_iff _ _).mp (hplaced uid List.mem_cons_self)
    have hlt : bufferId < info.loraRanks.length := by
      rw [hinfo, ← hpool.size]
      exact (List.getElem?_eq_some_iff.mp ((hpool.inverse uid bufferId).mp hbuffer)).1
    have hentry : ∃ next, m.batchEntry pool info uid = .ok next ∧ next.loraRanks.length = m.maxLorasPerBatch := by
      cases uid with
      | none =>
        exact ⟨{ info with weightIndices := info.weightIndices ++ [bufferId] },
          by simp only [LoraManager.batchEntry, hbuffer], hinfo⟩
      | some name =>
        obtain ⟨lora, hlora⟩ := (Dict.mem_keys_iff _ _).mp (hloaded name List.mem_cons_self)
        refine ⟨_, by simp only [LoraManager.batchEntry, hbuffer, hlora, if_pos hlt]; rfl, ?_⟩
        exact List.length_set.trans hinfo
    obtain ⟨next, hnext, hlength⟩ := hentry
    obtain ⟨info', hrest⟩ := ih (fun other hother => hplaced other (List.mem_cons_of_mem _ hother))
      (fun name hname => hloaded name (List.mem_cons_of_mem _ hname)) hlength
    refine ⟨info', ?_⟩
    rw [List.foldlM_cons, hnext]
    exact hrest

/-- An accepted batch of loaded adapters is prepared. -/
theorem batch (h : ManagerInv m) {pool : LoraMemoryPool} (hpool : m.memoryPool = some pool)
    {loraIds curUids : List (Option String)} (hguard : Loadable m (.batch loraIds curUids))
    (hloaded : ∀ name, some name ∈ loraIds → name ∈ m.loras.keys) (hvalid : m.validateLoraBatch curUids = .ok true) :
    ∃ info pool', m.prepareLoraBatch loraIds curUids = .ok (info, { m with memoryPool := some pool' }) ∧
      PoolInv m.maxLorasPerBatch pool' ∧ BatchPrepared m { m with memoryPool := some pool' } loraIds := by
  obtain ⟨hset, hfit⟩ := hguard
  have hload : ∀ uid ∈ curUids, pool.buffers.loadLoraWeightToBuffer uid (uid.bind m.loras.get?) = .ok () := by
    intro uid huid
    cases uid with
    | none => rfl
    | some name =>
      have hin := (hset.2 (some name)).mp huid
      obtain ⟨adapter, hadapter⟩ := (Dict.mem_keys_iff _ _).mp (hloaded name hin)
      rw [Option.bind_some, hadapter]
      exact hfit pool hpool name adapter hin hadapter
  obtain ⟨pool', hrun, hinv, hkept, hplaced⟩ :=
    pool_prepared (h.pool pool hpool) (h.room hpool hset.1 hvalid) hload
  have hplaced' : ∀ uid ∈ loraIds, uid ∈ pool'.uidToBufferId.keys :=
    fun uid huid => hplaced uid ((hset.2 uid).mpr huid)
  have hranks : (⟨[], List.replicate m.maxLorasPerBatch 0, List.replicate m.maxLorasPerBatch 0⟩ :
      LoraBatchInfo).loraRanks.length = m.maxLorasPerBatch := List.length_replicate
  obtain ⟨info, hinfo⟩ := batch_entries hinv hplaced' hloaded hranks
  have hlen : ¬curUids.length > m.maxLorasPerBatch := by
    intro hgt
    rw [LoraManager.validateLoraBatch, if_pos hgt] at hvalid
    cases hvalid
  refine ⟨info, pool', ?_, hinv, ⟨pool', rfl, fun uid huid => ?_⟩, fun before after hbefore hafter uid id hget hstay => ?_⟩
  · unfold LoraManager.prepareLoraBatch
    rw [hpool]
    simp only [if_neg hlen, hrun, hinfo, bind, Except.bind, pure, Except.pure]
  · obtain ⟨bufferId, hbuffer⟩ := (Dict.mem_keys_iff _ _).mp (hplaced' uid huid)
    exact ⟨bufferId, hbuffer, (hinv.inverse uid bufferId).mp hbuffer⟩
  · obtain rfl := Option.some.inj (hpool.symm.trans hbefore)
    obtain rfl := Option.some.inj hafter
    exact hkept uid id hget (hstay.imp_left (hset.2 uid).mpr)

theorem new (maxLoras : Nat) : ManagerInv (LoraManager.new maxLoras) where
  configs _ := Iff.rfl
  loraRefs _ := Iff.rfl
  numPinned := rfl
  keyed _ _ href := by cases href
  pool _ hpool := by cases hpool

/-- A new adapter goes into all three dictionaries. -/
theorem load (h : ManagerInv m) {ref : LoraRef} {pinned : Bool} (hpinned : ref.pinned = some pinned)
    (hfresh : ref.loraId ∉ m.loras.keys) (config : LoraConfig) (adapter : LoraAdapter) :
    ManagerInv { m with
      configs := m.configs.set ref.loraId config
      loras := m.loras.set ref.loraId adapter
      loraRefs := m.loraRefs.set ref.loraId ref
      numPinnedLoras := m.numPinnedLoras + pinned.toInt } := by
  have hnew : ref.loraId ∉ m.loraRefs.keys := fun hmem => hfresh ((h.loraRefs _).mp hmem)
  refine ⟨fun id => ?_, fun id => ?_, ?_, fun id stored hstored => ?_, h.pool⟩
  · simp only [Dict.mem_keys_set, h.configs]
  · simp only [Dict.mem_keys_set, h.loraRefs]
  · simp only [Dict.entries_set_of_notMem _ _ hnew, List.countP_append, h.numPinned]
    cases pinned <;> simp [hpinned]
  · by_cases hid : id = ref.loraId
    · subst hid
      obtain rfl := Option.some.inj ((Dict.get?_set_self _ _ _).symm.trans hstored)
      exact ⟨rfl, by simp [hpinned]⟩
    · exact h.keyed id stored ((Dict.get?_set_ne _ _ hid).symm.trans hstored)

/-- An adapter leaves all three. -/
theorem unload (h : ManagerInv m) {id : String} {ref : LoraRef} {pinned : Bool}
    (href : m.loraRefs.get? id = some ref) (hpinned : ref.pinned = some pinned) :
    ManagerInv { m with
      configs := m.configs.erase id
      loras := m.loras.erase id
      loraRefs := m.loraRefs.erase id
      numPinnedLoras := m.numPinnedLoras - pinned.toInt } := by
  refine ⟨fun other => ?_, fun other => ?_, ?_, fun other stored hstored => ?_, h.pool⟩
  · simp only [Dict.mem_keys_erase, h.configs]
  · simp only [Dict.mem_keys_erase, h.loraRefs]
  · simp only [h.numPinned, (m.loraRefs.entries_perm href).countP_eq, List.countP_cons, hpinned]
    cases pinned <;> simp
  · have hne : other ≠ id := by
      rintro rfl
      exact absurd ((Dict.get?_erase_self _ _).symm.trans hstored) (by simp)
    exact h.keyed other stored ((Dict.get?_erase_ne _ hne).symm.trans hstored)

theorem withPool (h : ManagerInv m) {pool : LoraMemoryPool} (hpool : PoolInv m.maxLorasPerBatch pool) :
    ManagerInv { m with memoryPool := some pool } :=
  ⟨h.configs, h.loraRefs, h.numPinned, h.keyed, fun _ hother => Option.some.inj hother ▸ hpool⟩

theorem newPool (buffers : LoraBuffers) (maxLoras : Nat) (policy : PolicyName) :
    PoolInv maxLoras (LoraMemoryPool.new buffers maxLoras policy) := by
  have hempty : ∀ (id : Nat) (uid : Option String), (List.replicate maxLoras none)[id]? ≠ some (some uid) := by
    intro id uid hget
    cases List.eq_of_mem_replicate (List.mem_of_getElem? hget)
  refine ⟨List.length_replicate, fun uid id => ⟨fun hget => ?_, fun hget => absurd hget (hempty id uid)⟩,
    fun uid hmem => ?_⟩
  · cases hget
  · cases List.eq_of_mem_replicate hmem

/-- What a load does: nothing, or all of it. -/
theorem load_cases {ref : LoraRef} {config : Except LoraError LoraConfig}
    {layers : Except LoraError (List (List (String × Shape)))} {out : LoraUpdateOutput} {m' : LoraManager}
    (hguard : Loadable m (.load ref config layers)) (hrun : m.loadLoraAdapter ref config layers = .ok (out, m')) :
    out.success = false ∧ m' = m ∨ out.success = true ∧ ref.loraId ∉ m.loras.keys ∧
      ∃ newAdapter adapter pinned, ref.pinned = some pinned ∧ m' = { m with
        configs := m.configs.set ref.loraId newAdapter
        loras := m.loras.set ref.loraId adapter
        loraRefs := m.loraRefs.set ref.loraId ref
        numPinnedLoras := m.numPinnedLoras + pinned.toInt } := by
  unfold LoraManager.loadLoraAdapter at hrun
  split at hrun
  next => cases hrun
  next hnamed =>
    split at hrun
    next => cases hrun
    next hfresh =>
      split at hrun
      next =>
        cases hrun
        exact Or.inl ⟨rfl, rfl⟩
      next hpinned =>
        rw [Except.ok.injEq] at hrun
        unfold LoraManager.tryLoad at hrun
        cases config with
        | error e =>
          cases hrun
          exact Or.inl ⟨rfl, rfl⟩
        | ok newAdapter =>
          cases hvalid : m.validateNewAdapter newAdapter ref with
          | error e =>
            simp only [hvalid] at hrun
            cases hrun
            exact Or.inl ⟨rfl, rfl⟩
          | ok u =>
            have hnamed' : ref.loraName.isSome = true ∧ ref.loraPath.isSome = true := by
              rw [not_or] at hnamed
              simpa [Option.isSome_iff_ne_none] using hnamed
            obtain ⟨⟨l, hl⟩, hgiven⟩ :=
              hguard ⟨hnamed', hfresh, Bool.not_eq_true _ ▸ hpinned, newAdapter, rfl, hvalid⟩
            obtain ⟨pinned, hp⟩ := Option.ne_none_iff_exists'.mp hgiven
            simp only [hvalid, hl, LoraRef.pinnedInt, hp] at hrun
            cases hrun
            exact Or.inr ⟨rfl, hfresh, newAdapter, ⟨newAdapter, l⟩, pinned, hp, rfl⟩

/-- A loaded adapter can be unloaded. -/
theorem unload_cases (h : ManagerInv m) {ref : LoraRef} {out : LoraUpdateOutput} {m' : LoraManager}
    (hrun : m.unloadLoraAdapter ref = .ok (out, m')) :
    out.success = true ∧ ∃ stored pinned, m.loraRefs.get? ref.loraId = some stored ∧ stored.pinned = some pinned ∧
      m' = { m with
        configs := m.configs.erase ref.loraId
        loras := m.loras.erase ref.loraId
        loraRefs := m.loraRefs.erase ref.loraId
        numPinnedLoras := m.numPinnedLoras - pinned.toInt } := by
  unfold LoraManager.unloadLoraAdapter at hrun
  cases href : m.loraRefs.get? ref.loraId with
  | none =>
    rw [href] at hrun
    simp only at hrun
    cases hrun
  | some stored =>
    obtain ⟨hid, hgiven⟩ := h.keyed ref.loraId stored href
    obtain ⟨pinned, hp⟩ := Option.ne_none_iff_exists'.mp hgiven
    have hin : ref.loraId ∈ m.loras.keys := (h.loraRefs _).mp ((Dict.mem_keys_iff _ _).mpr ⟨stored, href⟩)
    obtain ⟨config, hconfig⟩ := (Dict.mem_keys_iff _ _).mp ((h.configs _).mpr hin)
    simp only [href, hconfig, LoraManager.tryUnload, hid, hin, not_true_eq_false, if_false, LoraRef.pinnedInt, hp]
      at hrun
    cases hrun
    exact ⟨rfl, stored, pinned, rfl, hp, rfl⟩

/-- A batch that was prepared has only loaded adapters. -/
theorem loaded_of_prepared {loraIds curUids : List (Option String)} {info : LoraBatchInfo} {m' : LoraManager}
    (hrun : m.prepareLoraBatch loraIds curUids = .ok (info, m')) :
    (∃ pool, m.memoryPool = some pool) ∧ ∀ name, some name ∈ loraIds → name ∈ m.loras.keys := by
  unfold LoraManager.prepareLoraBatch at hrun
  cases hpool : m.memoryPool with
  | none =>
    rw [hpool] at hrun
    cases hrun
  | some pool =>
    refine ⟨⟨pool, rfl⟩, fun name hname => ?_⟩
    rw [hpool] at hrun
    simp only at hrun
    split at hrun
    next => cases hrun
    next =>
      obtain ⟨pool', -, hrest⟩ := bind_ok hrun
      obtain ⟨info', hentries, -⟩ := bind_ok hrest
      obtain ⟨before, after, hentry⟩ := foldlM_mem hentries hname
      unfold LoraManager.batchEntry at hentry
      cases hbuffer : pool'.uidToBufferId.get? (some name) with
      | none =>
        simp only [hbuffer] at hentry
        cases hentry
      | some bufferId =>
        cases hlora : m.loras.get? name with
        | none =>
          simp only [hbuffer, hlora] at hentry
          cases hentry
        | some lora => exact (Dict.mem_keys_iff _ _).mpr ⟨lora, hlora⟩

theorem step (h : ManagerInv m) {label : LoraLabel} {m' : LoraManager} (hguard : Loadable m label)
    (hstep : LoraManager.step label m = some m') :
    ManagerInv m' ∧ m'.maxLorasPerBatch = m.maxLorasPerBatch := by
  cases label with
  | load ref config layers =>
    unfold LoraManager.step at hstep
    cases hrun : m.loadLoraAdapter ref config layers with
    | error e =>
      simp only [hrun] at hstep
      cases hstep
      exact ⟨h, rfl⟩
    | ok result =>
      simp only [hrun] at hstep
      cases hstep
      rcases load_cases hguard hrun with ⟨-, heq⟩ | ⟨-, hfresh, newAdapter, adapter, pinned, hpinned, heq⟩
      · rw [heq]
        exact ⟨h, rfl⟩
      · rw [heq]
        exact ⟨h.load hpinned hfresh newAdapter adapter, rfl⟩
  | unload ref =>
    unfold LoraManager.step at hstep
    cases hrun : m.unloadLoraAdapter ref with
    | error e =>
      simp only [hrun] at hstep
      cases hstep
      exact ⟨h, rfl⟩
    | ok result =>
      simp only [hrun] at hstep
      cases hstep
      obtain ⟨-, stored, pinned, hstored, hpinned, heq⟩ := h.unload_cases hrun
      rw [heq]
      exact ⟨h.unload hstored hpinned, rfl⟩
  | initMemoryPool buffers policy =>
    cases hstep
    exact ⟨h.withPool (newPool buffers m.maxLorasPerBatch policy), rfl⟩
  | batch loraIds curUids =>
    unfold LoraManager.step at hstep
    simp only at hstep
    split at hstep
    next hvalid =>
      cases hrun : m.prepareLoraBatch loraIds curUids with
      | error e =>
        rw [hrun] at hstep
        cases hstep
      | ok result =>
        obtain ⟨⟨pool, hpool⟩, hloaded⟩ := loaded_of_prepared hrun
        obtain ⟨info, pool', hprepared, hinv, -⟩ := h.batch hpool hguard hloaded hvalid
        rw [hprepared] at hstep
        cases hstep
        exact ⟨h.withPool hinv, rfl⟩
    next =>
      cases hstep
      exact ⟨h, rfl⟩

theorem of_reach {maxLoras : Nat} (h : loraMachine.Reach Loadable (· = LoraManager.new maxLoras) m) : ManagerInv m := by
  refine Machine.Reach.invariant (fun m hm => ?_) (fun m m' label hm hguard hstep => (hm.step hguard hstep).1) h
  rw [hm]
  exact new maxLoras

end ManagerInv

/-- Over loads, unloads and batches the maps and the count agree, a failure changes nothing, and an
accepted batch is prepared. -/
theorem lora_integrity {maxLoras : Nat} {m : LoraManager}
    (h : loraMachine.Reach Loadable (· = LoraManager.new maxLoras) m) :
    LoraIntegrity m ∧
    (∀ ref config layers out m', Loadable m (.load ref config layers) →
      m.loadLoraAdapter ref config layers = .ok (out, m') → out.success = false → m' = m) ∧
    (∀ ref out m', m.unloadLoraAdapter ref = .ok (out, m') → out.success = false → m' = m) ∧
    ∀ loraIds curUids, m.memoryPool.isSome = true → Loadable m (.batch loraIds curUids) →
      (∀ name, some name ∈ loraIds → name ∈ m.loras.keys) → m.validateLoraBatch curUids = .ok true →
      ∃ info m', m.prepareLoraBatch loraIds curUids = .ok (info, m') ∧ BatchPrepared m m' loraIds := by
  have hinv := ManagerInv.of_reach h
  refine ⟨hinv.integrity, fun ref config layers out m' hguard hrun hfail => ?_, fun ref out m' hrun hfail => ?_,
    fun loraIds curUids hpool hguard hloaded hvalid => ?_⟩
  · rcases ManagerInv.load_cases hguard hrun with ⟨-, heq⟩ | ⟨hsuccess, -⟩
    · exact heq
    · rw [hfail] at hsuccess
      cases hsuccess
  · have hsuccess := (hinv.unload_cases hrun).1
    rw [hfail] at hsuccess
    cases hsuccess
  · obtain ⟨pool, hpool'⟩ := Option.isSome_iff_exists.mp hpool
    obtain ⟨info, pool', hrun, -, hprepared⟩ := hinv.batch hpool' hguard hloaded hvalid
    exact ⟨info, _, hrun, hprepared⟩

/-! ### Two managers -/

def pinnedRef : LoraRef := ⟨"a0", some "a", some "/adapters/a", some true⟩

def rankTwo : LoraConfig := ⟨["q_proj"], 2, 4⟩

/-- No target modules and no layers: every adapter fits. -/
def noBuffers : LoraBuffers := ⟨2, ["qkv_proj"], 0, 1, fun _ _ => 0, fun _ _ => 0, []⟩

/-- The manager with the pinned adapter and a pool of two slots. -/
def pinnedManager : LoraManager :=
  ⟨2, Dict.empty.set "a0" rankTwo, Dict.empty.set "a0" ⟨rankTwo, []⟩, Dict.empty.set "a0" pinnedRef, 1,
    some (LoraMemoryPool.new noBuffers 2 .lru)⟩

theorem pinnedManager_reached : loraMachine.Reach Loadable (· = LoraManager.new 2) pinnedManager := by
  have hload : loraMachine.step (.load pinnedRef (.ok rankTwo) (.ok [])) (LoraManager.new 2) =
      some { pinnedManager with memoryPool := none } := rfl
  have hpool : loraMachine.step (.initMemoryPool noBuffers .lru) { pinnedManager with memoryPool := none } =
      some pinnedManager := rfl
  have hguard : Loadable { pinnedManager with memoryPool := none } (.initMemoryPool noBuffers .lru) := trivial
  exact .step (.step (.start rfl) (fun _ => ⟨⟨[], rfl⟩, by decide⟩) hload) hguard hpool

/-- A batch of the pinned adapter and the base model is prepared. -/
theorem pinned_batch_prepared : LoraIntegrity pinnedManager ∧ ∃ info m',
    pinnedManager.prepareLoraBatch [some "a0", none] [none, some "a0"] = .ok (info, m') ∧
    BatchPrepared pinnedManager m' [some "a0", none] := by
  obtain ⟨hintegrity, -, -, hbatch⟩ := lora_integrity pinnedManager_reached
  refine ⟨hintegrity, hbatch [some "a0", none] [none, some "a0"] rfl ⟨⟨by decide, fun uid => ?_⟩, ?_⟩ ?_ (by decide)⟩
  · simp [or_comm]
  · intro pool hpool name adapter _ _
    obtain rfl := Option.some.inj hpool
    rfl
  · intro name hname
    simp only [List.mem_cons, Option.some.injEq, reduceCtorEq, List.not_mem_nil, or_false] at hname
    subst hname
    decide

/-- The weights of the adapter are missing: its configuration stays. -/
theorem lost_weights_leave_configuration : ∃ out m,
    (LoraManager.new 2).loadLoraAdapter pinnedRef (.ok rankTwo) (.error (.other "no safetensors file")) = .ok (out, m) ∧
    loraMachine.Reach (fun _ _ => True) (· = LoraManager.new 2) m ∧
    out.success = false ∧ m ≠ LoraManager.new 2 ∧ ¬LoraIntegrity m := by
  have hstep : loraMachine.step (.load pinnedRef (.ok rankTwo) (.error (.other "no safetensors file")))
      (LoraManager.new 2) = some { LoraManager.new 2 with configs := Dict.empty.set "a0" rankTwo } := rfl
  refine ⟨_, _, rfl, .step (.start rfl) trivial hstep, rfl, fun heq => ?_, fun h => ?_⟩
  · have hkeys := congrArg (fun m => m.configs.keys) heq
    exact absurd hkeys (by decide)
  · exact absurd ((h.configs "a0").mp (by decide)) (by decide)

end QCFuse.Guarantees
