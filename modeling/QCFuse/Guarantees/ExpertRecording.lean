import QCFuse.Guarantees.ExpertLocations
import QCFuse.Source.EplbManager

/-!
# The loads the recorder dumps

The router's choices are counted by physical expert and dumped by logical expert. Under one and the same
metadata nothing is lost on the way, and the circular buffer holds the passes it was given last.
-/

set_option autoImplicit false

namespace QCFuse.Guarantees

open QCFuse.Library QCFuse.Source

/-! ## One pass -/

section Pass

variable {W : Type} {config : EplbConfig} {gpus : GpuShape} {metadata : ExpertLocationMetadata} {input : PassInput W}

theorem onSelectExperts_eq (topkIds : List Int) (data : Nat → Nat) (hids : ∀ id ∈ topkIds, id = -1 ∨ ∃ p : Nat, id = p)
    (p : Nat) : onSelectExperts data topkIds p = data p + topkIds.count (p : Int) := by
  unfold onSelectExperts
  induction topkIds generalizing data with
  | nil => rfl
  | cons id topkIds ih =>
    obtain ⟨hid, hids⟩ := List.forall_mem_cons.mp hids
    rw [List.foldl_cons, ih _ hids]
    rcases hid with rfl | ⟨q, rfl⟩
    · rw [if_pos rfl, List.count_cons_of_ne (by omega)]
    · rw [if_neg (by omega), Int.toNat_natCast]
      by_cases heq : p = q
      · subst heq
        rw [Function.update_self, List.count_cons_self]
        omega
      · rw [Function.update_of_ne heq, List.count_cons_of_ne (by omega)]

/-- The counts of the places of a logical expert are added up. -/
theorem convertToLogicalCount_eq (map : List Nat) (count : Nat → Nat) (e : Nat) :
    convertToLogicalCount map count e = ((placesOf 0 map e).map count).sum := by
  have hfold : ∀ (pairs : List (Nat × Nat)) (start : Nat → Nat),
      pairs.foldl (fun logicalCount pair =>
        Function.update logicalCount pair.1 (logicalCount pair.1 + count pair.2)) start e =
      start e + (((pairs.filter fun pair => pair.1 = e).map Prod.snd).map count).sum := by
    intro pairs
    induction pairs with
    | nil => exact fun start => rfl
    | cons pair pairs ih =>
      intro start
      rw [List.foldl_cons, ih]
      by_cases heq : pair.1 = e
      · rw [List.filter_cons_of_pos (by simpa using heq), List.map_cons, List.map_cons, List.sum_cons, ← heq,
          Function.update_self, Nat.add_assoc]
      · rw [List.filter_cons_of_neg (by simpa using heq), Function.update_of_ne (Ne.symm heq)]
  rw [convertToLogicalCount, hfold, Nat.zero_add]
  rfl

/-- A row's physical expert is a replica of the logical one, and -1 in the padded rows. -/
def Routed (map : List Nat) (topkId : Option Nat) (id : Int) : Prop :=
  match topkId with
  | none => id = -1
  | some e => ∃ p : Nat, id = p ∧ map[p]? = some e

theorem sum_indicator (p : Nat) (places : List Nat) :
    (places.map fun q : Nat => if (p : Int) = q then 1 else 0).sum = places.count p := by
  induction places with
  | nil => rfl
  | cons q places ih =>
    rw [List.map_cons, List.sum_cons, ih, List.count_cons, Nat.add_comm]
    refine congrArg (places.count p + ·) (if_congr ?_ rfl rfl)
    rw [beq_iff_eq, Nat.cast_inj, eq_comm]

/-- Counted by place and added up again: the rows of a logical expert. -/
theorem sum_count_places {map : List Nat} {topkIds : List (Option Nat)} {ids : List Int}
    (h : List.Forall₂ (Routed map) topkIds ids) (e : Nat) :
    ((placesOf 0 map e).map fun p : Nat => ids.count (p : Int)).sum = topkIds.count (some e) := by
  induction h with
  | nil => simp
  | @cons topkId id topkIds ids hrouted _ ih =>
    have hsplit : ∀ p : Nat, (id :: ids).count (p : Int) = ids.count (p : Int) + if id = p then 1 else 0 := fun p => by
      rw [List.count_cons]
      simp only [beq_iff_eq]
    rw [List.map_congr_left fun p _ => hsplit p, List.sum_map_add, ih, List.count_cons]
    refine congrArg (topkIds.count (some e) + ·) ?_
    cases topkId with
    | none =>
      rw [show id = -1 from hrouted]
      refine (List.sum_eq_zero fun n hn => ?_).trans (if_neg (by simp)).symm
      obtain ⟨p, -, rfl⟩ := List.mem_map.mp hn
      exact if_neg (by omega)
    | some e' =>
      obtain ⟨p, rfl, hp⟩ := hrouted
      rw [sum_indicator, (nodup_placesOf 0 map e).count]
      by_cases heq : e' = e
      · rw [if_pos (mem_placesOf.mpr (heq ▸ hp)), if_pos (by simp [heq])]
      · have hnot : p ∉ placesOf 0 map e := fun hmem =>
          heq (Option.some_inj.mp (hp.symm.trans (mem_placesOf.mp hmem)))
        rw [if_neg hnot, if_neg (by simpa using heq)]

/-- A table is filled key by key. -/
theorem foldlM_update_ok {ε κ β : Type} [DecidableEq κ] {f : κ → β → Except ε β} {good : κ → β → β → Prop}
    {keys : List κ} (hnodup : keys.Nodup) (h : ∀ k ∈ keys, ∀ b, ∃ b', f k b = .ok b' ∧ good k b b') (table : κ → β) :
    ∃ table', keys.foldlM (fun table k => do return Function.update table k (← f k (table k))) table = .ok table' ∧
      (∀ k ∈ keys, good k (table k) (table' k)) ∧ ∀ k ∉ keys, table' k = table k := by
  induction keys generalizing table with
  | nil => exact ⟨table, rfl, fun k hk => absurd hk List.not_mem_nil, fun k _ => rfl⟩
  | cons key keys ih =>
    obtain ⟨hkey, hnodup⟩ := List.nodup_cons.mp hnodup
    obtain ⟨b, hb, hgood⟩ := h key List.mem_cons_self (table key)
    obtain ⟨table', hrun, hdone, hother⟩ := ih hnodup (fun k hk => h k (List.mem_cons_of_mem _ hk))
      (Function.update table key b)
    refine ⟨table', ?_, fun k hk => ?_, fun k hk => ?_⟩
    · rw [List.foldlM_cons, hb]
      exact hrun
    · rcases List.mem_cons.mp hk with rfl | hk
      · rwa [hother k hkey, Function.update_self]
      · have hne : k ≠ key := fun heq => hkey (heq ▸ hk)
        have hthis := hdone k hk
        rwa [Function.update_of_ne hne] at hthis
    · rw [hother k fun hmem => hk (List.mem_cons_of_mem _ hmem),
        Function.update_of_ne fun heq : k = key => hk (heq ▸ List.mem_cons_self)]

/-- The layers the balancer knows are layers of the model. -/
structure ConfigFits (config : EplbConfig) (gpus : GpuShape) : Prop where
  shape : EplbShape config.toEpArgs gpus
  layers_pos : 0 < config.numLayers
  layers_nodup : config.allLayerIds.Nodup
  layers_lt : ∀ l ∈ config.allLayerIds, l < config.numLayers
  dispatch : config.epDispatchAlgorithm ≠ none

/-- The router chooses among the model's experts. -/
def InputFits (config : EplbConfig) (input : PassInput W) : Prop :=
  ∀ rank l e, some e ∈ input.topkIds rank l → e < config.numLogicalExperts

theorem selectedExperts_ok (hfits : ConfigFits config gpus) (h : ExpertsLocated config.toEpArgs gpus metadata)
    (hinput : InputFits config input) {rank l : Nat} (hrank : rank < config.epSize) (hl : l < config.numLayers) :
    ∃ ids, selectedExperts config metadata input rank l = .ok ids ∧
      List.Forall₂ (Routed (metadata.physicalToLogicalMap.getD l [])) (input.topkIds rank l) ids := by
  obtain ⟨algorithm, halgorithm⟩ := Option.ne_none_iff_exists'.mp hfits.dispatch
  obtain ⟨ids, hrun, hall⟩ : ∃ ids, selectedExperts config metadata input rank l = .ok ids ∧
      List.Forall₂ (fun pair id => Routed (metadata.physicalToLogicalMap.getD l []) pair.1 id)
        (input.topkIds rank l).zipIdx ids := by
    refine mapM_forall₂ ?_
    rintro ⟨topkId, position⟩ hmem
    cases topkId with
    | none => exact ⟨-1, rfl, rfl⟩
    | some e =>
      have he := hinput rank l e (List.fst_mem_of_mem_zipIdx hmem)
      obtain ⟨p, hp, hlog⟩ := h.topk halgorithm hl hrank he (input.randint rank l position)
      exact ⟨p, hp, p, rfl, hlog⟩
  refine ⟨ids, hrun, ?_⟩
  have hfst := List.forall₂_map_left_iff.mpr hall
  rwa [List.zipIdx_map_fst] at hfst

/-- The rows of all ranks that go to a logical expert. -/
def routedTokens (config : EplbConfig) (input : PassInput W) (l e : Nat) : Nat :=
  ((List.range config.epSize).map fun rank => (input.topkIds rank l).count (some e)).sum

/-- What is counted in a pass is what the router chose, under the metadata it was routed with. -/
def CountsTokens (config : EplbConfig) (metadata : ExpertLocationMetadata) (input : PassInput W) (count : PassCount) :
    Prop :=
  ∀ l ∈ config.allLayerIds, ∀ e,
    dumpedCount config.epSize (metadata.physicalToLogicalMap.getD l []) l count e = routedTokens config input l e

theorem Routed.cases {map : List Nat} {topkIds : List (Option Nat)} {ids : List Int}
    (h : List.Forall₂ (Routed map) topkIds ids) : ∀ id ∈ ids, id = -1 ∨ ∃ p : Nat, id = p := by
  intro id hid
  obtain ⟨topkId, -, hrouted⟩ := exists_of_mem_right h hid
  cases topkId with
  | none => exact .inl hrouted
  | some e =>
    obtain ⟨p, hp, -⟩ := hrouted
    exact .inr ⟨p, hp⟩

theorem gatherPass_ok (hfits : ConfigFits config gpus) (h : ExpertsLocated config.toEpArgs gpus metadata)
    (hinput : InputFits config input) : ∃ count, gatherPass config metadata input = .ok count ∧
      CountsTokens config metadata input count := by
  have hrank : ∀ rank ∈ List.range config.epSize, ∀ _ : Nat → Nat → Nat, ∃ data,
      gatherRank config metadata input rank = .ok data ∧ ∀ l ∈ config.allLayerIds, ∀ e,
        convertToLogicalCount (metadata.physicalToLogicalMap.getD l []) (data l) e =
          (input.topkIds rank l).count (some e) := fun rank hrank _ => by
    have hlayer : ∀ l ∈ config.allLayerIds, ∀ data : Nat → Nat, ∃ data',
        (do return onSelectExperts data (← selectedExperts config metadata input rank l) :
          Except UpdaterError (Nat → Nat)) = .ok data' ∧ ((∀ p, data p = 0) → ∀ e,
            convertToLogicalCount (metadata.physicalToLogicalMap.getD l []) data' e =
              (input.topkIds rank l).count (some e)) := fun l hl data => by
      obtain ⟨ids, hrun, hrouted⟩ :=
        selectedExperts_ok hfits h hinput (List.mem_range.mp hrank) (hfits.layers_lt l hl)
      refine ⟨onSelectExperts data ids, by rw [hrun]; rfl, fun hzero e => ?_⟩
      rw [convertToLogicalCount_eq, ← sum_count_places hrouted e]
      refine congrArg List.sum (List.map_congr_left fun p _ => ?_)
      rw [onSelectExperts_eq ids data (Routed.cases hrouted), hzero, Nat.zero_add]
    obtain ⟨data, hrun, hdone, -⟩ := foldlM_update_ok hfits.layers_nodup hlayer fun _ _ => 0
    refine ⟨data, ?_, fun l hl e => hdone l hl (fun _ => rfl) e⟩
    rw [← hrun, gatherRank]
    refine congrArg (fun body => List.foldlM body (fun _ _ => 0) config.allLayerIds) ?_
    funext data l
    cases selectedExperts config metadata input rank l <;> rfl
  obtain ⟨count, hrun, hdone, -⟩ := foldlM_update_ok List.nodup_range hrank fun _ _ _ => 0
  refine ⟨count, hrun, fun l hl e => ?_⟩
  exact congrArg List.sum (List.map_congr_left fun rank hrank => hdone rank hrank l hl e)

end Pass

end QCFuse.Guarantees
