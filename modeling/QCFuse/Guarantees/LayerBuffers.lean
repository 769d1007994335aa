import QCFuse.Guarantees.LoaderAccounting

/-!
# Layer buffers over the rounds of a DO_BLEND

A round overwrites and rotates the tensors of the layers it clears afterwards, and copies those
of the layers it keeps. The loader of the QCOMPUTE may still be alive in a round that does not
wait for it, and the clearing takes no lock.
-/

set_option autoImplicit false

namespace QCFuse.Guarantees

open QCFuse.Library QCFuse.Source

/-- Every tensor of `HackBlendKVPool` is the chunk cache's, unrotated; of the digest rows
nothing is asked. -/
def sampleOrigin (cfg : Config) (chunk query : Dir) : Origin where
  chunkDir := chunk
  queryDir := query
  digest _ _ := True
  cache l kv := kv = cfg.disk.chunk chunk chunk l

/-- The event of a layer below `n` stands for the layer of `HackBlendKVPool`. -/
def blendNeeds (n : Nat) : Needs
  | .layer l, c => l < n ∧ c = .hack l
  | .taskB, _ => False

/-- What is known between the statements of the sample's requests: the threads that set a
`settled` event are done, and a `fresh` event has not been set since it was cleared. -/
structure RoundState (cfg : Config) (o : Origin) (selection : List Nat) (n : Needs)
    (settled fresh : Wait → Prop) (blended : Nat → Prop) (s : Shared) : Prop where
  held : Held cfg.disk o (fun _ => True) blended s
  protocol : Protocol n s
  tidy : ∀ t ∈ s.loaders, Tidy selection t
  once : ∀ w, SetOnce w s
  settled : ∀ w, settled w → totalSets w s.loaders = 0
  fresh : ∀ w, fresh w → totalSets w s.loaders = 0 ∧
    (s.rt.eventOf w = some true → s.rt.loaderError = true)

variable {cfg : Config} {o : Origin} {selection : List Nat} {n : Needs} {settled fresh : Wait → Prop}
  {blended : Nat → Prop}

theorem roundState_stable (o : Origin) (selection : List Nat) (n : Needs) (settled fresh : Wait → Prop)
    (blended : Nat → Prop) :
    Stable (Rely cfg) (RoundState cfg o selection n settled fresh blended) := by
  intro s s' hs hrely
  have htotal : ∀ w, totalSets w s'.loaders ≤ totalSets w s.loaders := by
    intro w
    obtain ⟨index, fails, hstep⟩ := hrely
    exact (totalSets_loaderStep hs.protocol hstep w).1
  refine ⟨held_stable _ _ s s' hs.held hrely, protocol_stable n s s' hs.protocol hrely,
    tidy_loaderStep hs.tidy hrely, fun w => setOnce_loaderStep hs.protocol (hs.once w) hrely,
    fun w hw => ?_, fun w hw => ?_⟩
  · have hzero := hs.settled w hw
    have hle := htotal w
    omega
  · obtain ⟨hzero, herror⟩ := hs.fresh w hw
    have hle := htotal w
    refine ⟨by omega, fun hevent => ?_⟩
    obtain ⟨index, fails, hstep⟩ := hrely
    obtain ⟨t, r, ht, hr, hrt, hthreads⟩ := loaderStep_cases hstep
    rcases (totalSets_loaderStep hs.protocol hstep w).2 hevent with hbefore | hafter | hspent
    · rw [hrt]
      exact (loader_step_effect hr).error_kept (herror hbefore)
    · exact hafter
    · omega

theorem RoundState.weaken {settled' fresh' : Wait → Prop} {blended' : Nat → Prop} {s : Shared}
    (h : RoundState cfg o selection n settled fresh blended s) (hsettled : ∀ w, settled' w → settled w)
    (hfresh : ∀ w, fresh' w → fresh w) (hblended : ∀ l, blended l → blended' l) :
    RoundState cfg o selection n settled' fresh' blended' s :=
  ⟨h.held.weaken (fun _ => id) hblended, h.protocol, h.tidy, h.once,
    fun w hw => h.settled w (hsettled w hw), fun w hw => h.fresh w (hfresh w hw)⟩

/-- Nobody writes a layer whose event is settled, unless it is one of the selection's. -/
theorem RoundState.unwritten {s : Shared} (h : RoundState cfg o selection n settled fresh blended s)
    {l : Nat} (hlayer : settled (.layer l)) (htask : l ∉ selection ∨ settled .taskB) :
    ∀ t ∈ s.loaders, ¬ Writes t l := by
  intro t ht hwrites
  have hset : ∀ w, settled w → pendingSets w t = 0 := fun w hw => by
    have hle := pendingSets_le_total (w := w) ht
    have hzero := h.settled w hw
    omega
  rcases (h.tidy t ht).writes hwrites with ⟨hsel, hpos⟩ | hpos
  · rcases htask with hnot | htask
    · exact hnot hsel
    · rw [hset _ htask] at hpos
      exact absurd hpos (Nat.lt_irrefl 0)
  · rw [hset _ hlayer] at hpos
    exact absurd hpos (Nat.lt_irrefl 0)

/-- Behind a fresh configuration with no live loader, nothing is pending. -/
theorem roundState_configured {numLayers : Nat} {s : Shared}
    (h : Configured numLayers o.chunkDir o.queryDir s.rt) (hended : ∀ t ∈ s.loaders, t.Ended) :
    RoundState cfg o selection n (fun _ => True) (fun _ => True) blended s := by
  have hzero : ∀ w, totalSets w s.loaders = 0 := fun w => totalSets_quiet hended
  refine ⟨held_configured h hended, protocol_configured h hended, fun t ht => tidy_ended (hended t ht),
    fun w => ?_, fun w _ => hzero w, fun w _ => ⟨hzero w, fun hw => absurd hw (h.eventOf w)⟩⟩
  have hnone := hzero w
  exact ⟨by omega, fun _ => Or.inr hnone⟩

/-! ## Statements -/

section Statements

variable {req : BlendRequest} {demand : MainOp → Shared → Prop}

theorem roundState_exec {op : MainOp} {s s' : Shared} (hkeeps : KeepsProtocol op)
    (hs : RoundState cfg o selection n settled fresh blended s) (hstep : Exec cfg req op s s') :
    RoundState cfg o selection n settled fresh (fun l => blended l ∨ op = .blendLayer l true) s' := by
  obtain ⟨hloaders, hevents, herror⟩ := keepsProtocol_frame hkeeps hstep
  refine ⟨(held_exec hkeeps.keepsHeld hs.held hstep).weaken (fun _ _ => trivial) fun _ => id,
    protocol_exec hkeeps hs.protocol hstep, ?_, ?_, ?_, ?_⟩
  · rw [hloaders]
    exact hs.tidy
  · unfold SetOnce
    rw [hloaders, herror]
    intro w
    rw [hevents]
    exact hs.once w
  · rw [hloaders]
    exact hs.settled
  · rw [hloaders, herror]
    intro w
    rw [hevents]
    exact hs.fresh w

/-- Statements of the forward thread that leave the loaders and the pools' tensors alone. -/
theorem outline_roundKeep {ops : List MainOp} (hdemand : ∀ op ∈ ops, ∀ s, demand op s)
    (hops : ∀ op ∈ ops, KeepsProtocol op ∧ ∀ l, op ≠ .blendLayer l true) :
    Outline (Exec cfg req) (Rely cfg) demand (RoundState cfg o selection n settled fresh blended) ops
      (RoundState cfg o selection n settled fresh blended) := by
  apply Outline.keep (roundState_stable _ _ _ _ _ _) fun op hop s _ => hdemand op hop s
  intro op hop s s' hs hstep
  obtain ⟨hkeeps, hblend⟩ := hops op hop
  exact (roundState_exec hkeeps hs hstep).weaken (fun _ => id) (fun _ => id)
    fun l hl => hl.resolve_right (hblend l)

/-- A thread joins, for events that are fresh. -/
theorem roundState_start {t : Loader} {s s' : Shared}
    (hs : RoundState cfg o selection n settled fresh blended s) (hfrom : ThreadFrom cfg.disk o t)
    (hmeets : ∀ there recorded, ThreadMeets n there recorded t) (htidy : Tidy selection t)
    (hpending : ∀ w, 0 < pendingSets w t → pendingSets w t ≤ 1 ∧ fresh w)
    (hstep : Exec cfg req (.start t) s s') :
    RoundState cfg o selection n (fun w => settled w ∧ pendingSets w t = 0)
      (fun w => fresh w ∧ pendingSets w t = 0) blended s' := by
  have hheld := held_start hs.held hfrom hstep
  have hprotocol := protocol_start hs.protocol (hmeets _ _) hstep
  cases exec_effect hstep
  have htotal : ∀ w, totalSets w (s.loaders ++ [t]) = totalSets w s.loaders + pendingSets w t := by
    intro w
    rw [totalSets_append]
    rfl
  refine ⟨hheld, hprotocol, fun u hu => ?_, fun w => ?_, fun w hw => ?_, fun w hw => ?_⟩
  · rcases List.mem_append.mp hu with hu | hu
    · exact hs.tidy u hu
    · rw [List.mem_singleton.mp hu]
      exact htidy
  · unfold SetOnce
    rw [htotal]
    rcases Nat.eq_zero_or_pos (pendingSets w t) with hzero | hpos
    · rw [hzero]
      exact hs.once w
    · obtain ⟨hone, hfresh⟩ := hpending w hpos
      obtain ⟨hzero, herror⟩ := hs.fresh w hfresh
      exact ⟨by omega, fun hevent => Or.inl (herror hevent)⟩
  · have hzero := hs.settled w hw.1
    rw [htotal, hzero, hw.2]
  · obtain ⟨hzero, herror⟩ := hs.fresh w hw.1
    rw [htotal, hzero, hw.2]
    exact ⟨rfl, herror⟩

/-- What a thread has put into the pools stays there. -/
theorem presentState_stable (o : Origin) (selection : List Nat) (n n' : Needs) (w : Wait)
    (settled fresh : Wait → Prop) (blended : Nat → Prop) :
    Stable (Rely cfg) fun s => RoundState cfg o selection n settled fresh blended s ∧
      ∀ c, n' w c → Present s.rt c := by
  intro s s' hs hrely
  refine ⟨roundState_stable _ _ _ _ _ _ s s' hs.1 hrely, fun c hc => ?_⟩
  obtain ⟨index, fails, hstep⟩ := hrely
  obtain ⟨t, r, ht, hr, hrt, hthreads⟩ := loaderStep_cases hstep
  rw [hrt]
  exact (loader_step_effect hr).present (hs.2 c hc)

/-- Behind a wait that returned, its thread is done and what the event stands for is there. -/
theorem outline_roundWait (w : Wait) (hdemand : ∀ op ∈ waitFor w, ∀ s, demand op s) :
    Outline (Exec cfg req) (Rely cfg) demand
      (RoundState cfg o selection n settled (fun _ => False) blended) (waitFor w)
      (fun s => RoundState cfg o selection n (fun w' => settled w' ∨ w' = w) (fun _ => False) blended s ∧
        ∀ c, n w c → Present s.rt c) := by
  have hbefore : Stable (Rely cfg) (RoundState cfg o selection n settled (fun _ => False) blended) :=
    roundState_stable _ _ _ _ _ _
  have hset : Stable (Rely cfg) fun s =>
      RoundState cfg o selection n settled (fun _ => False) blended s ∧ s.rt.eventOf w = some true :=
    fun s s' hs hrely => ⟨hbefore s s' hs.1 hrely, event_stable w s s' hs.2 hrely⟩
  refine .next hbefore (fun s _ => hdemand _ List.mem_cons_self s) ?_
    (.next hset (fun s _ => hdemand _ (List.mem_cons_of_mem _ List.mem_cons_self) s) ?_
      (.done (presentState_stable _ _ _ _ _ _ _ _) fun _ hs => hs))
  · intro s s' hs hstep
    cases exec_effect hstep with
    | wait w hset => exact ⟨hs, hset⟩
  · rintro s s' ⟨hs, hset⟩ hstep
    cases exec_effect hstep with
    | raiseLoaderError w hnone =>
      -- no error, so the event was set by the thread it belongs to
      have herror : ¬ s.rt.loaderError = true := by
        rw [hnone]
        exact nofun
      refine ⟨⟨hs.held, hs.protocol, hs.tidy, hs.once, fun w' hw' => ?_, fun _ h => h.elim⟩,
        (hs.protocol.earned w hset).resolve_left herror⟩
      rcases hw' with hw' | rfl
      · exact hs.settled w' hw'
      · exact ((hs.once w').2 hset).resolve_left herror

theorem eventOf_clearLayer {rt : Runtime} {w : Wait} {layerId : Nat}
    (h : ({ rt with layerReady := rt.layerReady.set layerId false } : Runtime).eventOf w = some true) :
    rt.eventOf w = some true ∧ w ≠ .layer layerId := by
  cases w with
  | taskB => exact ⟨h, nofun⟩
  | layer l =>
    simp only [Runtime.eventOf, List.getElem?_set] at h
    by_cases heq : layerId = l
    · rw [if_pos heq] at h
      split at h <;> cases h
    · rw [if_neg heq] at h
      refine ⟨h, fun hl => heq ?_⟩
      cases hl
      rfl

/-- The events of the layers are cleared one by one, after which they stand for the layers of
`HackBlendKVPool`. -/
theorem outline_resetLayerEvents (hdemand : ∀ stmt s, demand (.run stmt) s)
    (hsettled : ∀ l, settled (.layer l)) (numLayers : Nat) :
    Outline (Exec cfg req) (Rely cfg) demand
      (RoundState cfg o selection (blendNeeds 0) settled (fun _ => False) blended)
      (resetLayerEvents numLayers)
      (RoundState cfg o selection (blendNeeds numLayers) settled
        (fun w => ∃ l < numLayers, w = .layer l) blended) := by
  unfold resetLayerEvents
  rw [List.map_eq_flatMap]
  have hstable : ∀ i, Stable (Rely cfg) (RoundState cfg o selection (blendNeeds i) settled
      (fun w => ∃ l < i, w = .layer l) blended) := fun i => roundState_stable _ _ _ _ _ _
  apply Outline.strengthen (roundState_stable _ _ _ _ _ _) _ (Outline.loop hstable _)
  · intro s hs
    exact hs.weaken (fun _ => id) (fun w hw => by
      obtain ⟨l, hl, -⟩ := hw
      exact absurd hl (Nat.not_lt_zero l)) fun _ => id
  intro i _
  refine .next (hstable i) (fun s _ => hdemand _ s) (fun s s' hs hstep => ?_)
    (.done (hstable (i + 1)) fun _ hs => hs)
  have hkeeps : KeepsHeld cfg.disk o (.run (.clearLayerEvent i)) := trivial
  have hheld := (held_exec hkeeps hs.held hstep).weaken (fun _ _ => trivial)
    fun l hl => hl.resolve_right nofun
  have hset : ∀ w, totalSets w s.loaders = 0 → ∀ t ∈ s.loaders, pendingSets w t = 0 := by
    intro w hzero t ht
    have hle := pendingSets_le_total (w := w) ht
    omega
  cases exec_effect hstep with
  | run stmt rt hrt =>
    cases hrt
    refine ⟨hheld, ⟨hs.protocol.whole, fun w hw => ?_, fun t ht => ?_⟩, hs.tidy, fun w => ?_,
      hs.settled, fun w hw => ?_⟩
    · obtain ⟨hbefore, hne⟩ := eventOf_clearLayer hw
      refine (hs.protocol.earned w hbefore).imp_right fun hc c hn => hc c ?_
      cases w with
      | taskB => exact hn
      | layer l =>
        have hli : l ≠ i := fun heq => hne (heq ▸ rfl)
        have hlt : l < i + 1 := hn.1
        exact ⟨by omega, hn.2⟩
    · exact (hs.protocol.threads t ht).retarget
        (fun l => hset _ (hs.settled _ (hsettled l)) t ht) fun _ => id
    · exact ⟨(hs.once w).1, fun hevent => (hs.once w).2 (eventOf_clearLayer hevent).1⟩
    · obtain ⟨l, hl, rfl⟩ := hw
      refine ⟨hs.settled _ (hsettled l), fun hevent => ?_⟩
      obtain ⟨hbefore, hne⟩ := eventOf_clearLayer hevent
      have hli : l ≠ i := fun heq => hne (heq ▸ rfl)
      exact (hs.fresh _ ⟨l, by omega, rfl⟩).2 hbefore

theorem not_blendNeeds_zero (w : Wait) (c : Cell) : ¬ blendNeeds 0 w c := by
  intro h
  cases w with
  | taskB => exact h
  | layer l => exact absurd h.1 (Nat.not_lt_zero l)

/-- Where every layer's event is settled, the events need not stand for anything. -/
theorem protocol_settled {s : Shared} {rt : Runtime}
    (hs : RoundState cfg o selection n settled fresh blended s) (hsettled : ∀ l, settled (.layer l))
    (hwhole : Whole rt) (herror : rt.loaderError = s.rt.loaderError) :
    Protocol (blendNeeds 0) { s with rt := rt } := by
  refine ⟨hwhole, fun w _ => Or.inr fun c hc => absurd hc (not_blendNeeds_zero w c), fun t ht => ?_⟩
  have hmeets := hs.protocol.threads t ht
  rw [← herror] at hmeets
  refine hmeets.retarget (fun l => ?_) (not_blendNeeds_zero .taskB)
  have hle : pendingSets (.layer l) t ≤ totalSets (.layer l) s.loaders := pendingSets_le_total ht
  have hzero := hs.settled _ (hsettled l)
  omega

theorem RoundState.forget {s : Shared} (h : RoundState cfg o selection n settled fresh blended s)
    (hsettled : ∀ l, settled (.layer l)) :
    RoundState cfg o selection (blendNeeds 0) settled fresh blended s :=
  ⟨h.held, protocol_settled h hsettled h.protocol.whole rfl, h.tidy, h.once, h.settled, h.fresh⟩

theorem whole_clearLayerK {rt : Runtime} (h : Whole rt) (l : Nat) :
    Whole { rt with hack := { rt.hack with kBuffer := rt.hack.kBuffer.set l none } } := by
  intro i hi
  refine h i ?_
  simp only [layerOf_cleared] at hi
  split at hi
  next => cases hi
  next => exact hi

theorem whole_clearLayerV {rt : Runtime} (h : Whole rt) {l : Nat}
    (hcleared : layerOf rt.hack.kBuffer l = none) :
    Whole { rt with hack := { rt.hack with vBuffer := rt.hack.vBuffer.set l none } } := by
  intro i hi
  have hne : i ≠ l := by
    rintro rfl
    simp only [hcleared, Option.isSome_none, Bool.false_eq_true] at hi
  simp only [layerOf_cleared, if_neg hne]
  exact h i hi

/-- The two statements that clear a layer, which no thread writes any more: in between, V is there
without K. -/
theorem outline_clearLayer (hdemand : ∀ stmt s, demand (.run stmt) s) {l : Nat}
    (hsettled : ∀ i, settled (.layer i)) (htask : l ∉ selection ∨ settled .taskB) :
    Outline (Exec cfg req) (Rely cfg) demand
      (RoundState cfg o selection (blendNeeds 0) settled (fun _ => False) blended)
      [.run (.clearLayerK l), .run (.clearLayerV l)]
      (RoundState cfg o selection (blendNeeds 0) settled (fun _ => False)
        fun i => blended i ∧ i ≠ l) := by
  have hbefore : Stable (Rely cfg)
      (RoundState cfg o selection (blendNeeds 0) settled (fun _ => False) blended) :=
    roundState_stable _ _ _ _ _ _
  have hcleared : Stable (Rely cfg) fun s =>
      RoundState cfg o selection (blendNeeds 0) settled (fun _ => False) blended s ∧
        layerOf s.rt.hack.kBuffer l = none := by
    intro s s' hs hrely
    refine ⟨hbefore s s' hs.1 hrely, ?_⟩
    rw [layer_loaderStep (hs.1.unwritten (hsettled l) htask) hrely]
    exact hs.2
  have hheld : ∀ {stmt s s'}, (stmt = .clearLayerK l ∨ stmt = .clearLayerV l) →
      Held cfg.disk o (fun _ => True) blended s → Exec cfg req (.run stmt) s s' →
        Held cfg.disk o (fun _ => True) blended s' := by
    intro stmt s s' hstmt hs hstep
    have hkeeps : KeepsHeld cfg.disk o (.run stmt) := by rcases hstmt with rfl | rfl <;> trivial
    exact (held_exec hkeeps hs hstep).weaken (fun _ _ => trivial) fun i hi => hi.resolve_right nofun
  refine .next hbefore (fun s _ => hdemand _ s) (fun s s' hs hstep => ?_)
    (.next hcleared (fun s _ => hdemand _ s) (fun s s' hs hstep => ?_)
      (.done (roundState_stable _ _ _ _ _ _) fun _ hs => hs))
  · have hheld := hheld (Or.inl rfl) hs.held hstep
    cases exec_effect hstep with
    | run stmt rt hrt =>
      cases hrt
      refine ⟨⟨hheld, protocol_settled hs hsettled (whole_clearLayerK hs.protocol.whole l) rfl, hs.tidy,
        hs.once, hs.settled, fun _ h => h.elim⟩, ?_⟩
      simp only [layerOf_cleared, if_true]
  · obtain ⟨hs, hnone⟩ := hs
    have hheld := hheld (Or.inr rfl) hs.held hstep
    cases exec_effect hstep with
    | run stmt rt hrt =>
      cases hrt
      refine ⟨⟨hheld.chunkDir, hheld.queryDir, hheld.context, fun i kv hi => ?_, hheld.threads⟩,
        protocol_settled hs hsettled (whole_clearLayerV hs.protocol.whole hnone) rfl, hs.tidy,
        hs.once, hs.settled, fun _ h => h.elim⟩
      refine (hheld.hack i kv hi).imp_left fun hblended => ⟨hblended, ?_⟩
      rintro rfl
      simp only [HackPool.kvOf, hnone] at hi
      cases hi

/-- `clear_do_blend_layers` behind a round, where no thread writes a layer that is cleared. -/
theorem outline_clearDoBlendLayers (hdemand : ∀ stmt s, demand (.run stmt) s) {keep : List Nat}
    {numLayers : Nat} (hsettled : ∀ i, settled (.layer i))
    (htask : ∀ l, l ∉ keep → l ∉ selection ∨ settled .taskB)
    (hblended : ∀ l, blended l → l < numLayers ∧ l ∉ keep) :
    Outline (Exec cfg req) (Rely cfg) demand
      (RoundState cfg o selection (blendNeeds 0) settled (fun _ => False) blended)
      (clearDoBlendLayers numLayers keep)
      (RoundState cfg o selection (blendNeeds 0) settled (fun _ => False) fun _ => False) := by
  have hstable : ∀ i, Stable (Rely cfg) (RoundState cfg o selection (blendNeeds 0) settled
      (fun _ => False) fun l => blended l ∧ i ≤ l) := fun i => roundState_stable _ _ _ _ _ _
  have hloop : Outline (Exec cfg req) (Rely cfg) demand
      (RoundState cfg o selection (blendNeeds 0) settled (fun _ => False) fun l => blended l ∧ 0 ≤ l)
      ((List.range numLayers).flatMap fun layerId =>
        if layerId ∈ keep then [] else [.run (.clearLayerK layerId), .run (.clearLayerV layerId)])
      (RoundState cfg o selection (blendNeeds 0) settled (fun _ => False)
        fun l => blended l ∧ numLayers ≤ l) := by
    apply Outline.loop hstable
    intro i _
    split
    next hkeep =>
      refine .done (hstable i) fun s hs => hs.weaken (fun _ => id) (fun _ => id) ?_
      rintro l ⟨hl, hle⟩
      refine ⟨hl, Nat.lt_of_le_of_ne hle ?_⟩
      rintro rfl
      exact (hblended i hl).2 hkeep
    next hclear =>
      apply (outline_clearLayer hdemand hsettled (htask i hclear)).weaken
      intro s hs
      apply hs.weaken (fun _ => id) fun _ => id
      rintro l ⟨⟨hl, hle⟩, hne⟩
      exact ⟨hl, Nat.lt_of_le_of_ne hle (Ne.symm hne)⟩
  have hclear : Outline (Exec cfg req) (Rely cfg) demand
      (RoundState cfg o selection (blendNeeds 0) settled (fun _ => False) blended)
      ((List.range numLayers).flatMap fun layerId =>
        if layerId ∈ keep then [] else [.run (.clearLayerK layerId), .run (.clearLayerV layerId)])
      (RoundState cfg o selection (blendNeeds 0) settled (fun _ => False) fun _ => False) := by
    apply (hloop.strengthen (roundState_stable _ _ _ _ _ _) _).weaken
    · intro s hs
      apply hs.weaken (fun _ => id) fun _ => id
      rintro l ⟨hl, hle⟩
      exact absurd (hblended l hl).1 (Nat.not_lt_of_le hle)
    · intro s hs
      apply hs.weaken (fun _ => id) fun _ => id
      exact fun l hl => ⟨hl, Nat.zero_le l⟩
  unfold clearDoBlendLayers
  apply hclear.append
  apply (outline_resetLayerEvents hdemand hsettled numLayers).weaken
  exact fun s hs => (hs.forget hsettled).weaken (fun _ => id) (fun _ h => h.elim) fun _ => id

/-- The events settled when the forward pass of a round comes to layer `i`; task B was `loaded`
before the round or is waited for at the start layer. -/
def roundSettled (req : BlendRequest) (numLayers : Nat) (loaded : Prop) (i : Nat) : Wait → Prop
  | .layer l => l < i ∨ ¬ (req.start < l ∧ l < numLayers)
  | .taskB => loaded ∨ (req.start < i ∧ 0 < req.ratio)

/-- The layers that a round overwrites in the pool. -/
def Overwrites (req : BlendRequest) (numLayers l : Nat) : Prop :=
  req.blendStyle = .doBlendFinish ∨ l ∉ req.keepLayersSet numLayers

/-- The pools in the forward pass of a round, before layer `i`. -/
abbrev RoundAt (cfg : Config) (o : Origin) (selection : List Nat) (req : BlendRequest) (loaded : Prop)
    (i : Nat) : Shared → Prop :=
  RoundState cfg o selection (blendNeeds cfg.numLayers) (roundSettled req cfg.numLayers loaded i)
    (fun _ => False) fun l => l < i ∧ Overwrites req cfg.numLayers l

theorem countP_layer (w : Wait) (ids : List Nat) : (ids.countP fun l => w = .layer l) =
    match w with
    | .layer l => ids.count l
    | .taskB => 0 := by
  cases w with
  | taskB => simp
  | layer l =>
    simp only [Wait.layer.injEq]
    rw [List.count_eq_countP]
    apply List.countP_congr
    intro i _
    rw [decide_eq_true_eq, beq_iff_eq]
    exact eq_comm

/-- The prefetch of a round starts behind the cleared events. -/
theorem outline_roundPrepare (hdemand : ∀ stmt s, demand (.run stmt) s)
    (hstart : ∀ t s, demand (.start t) s)
    (hfrom : ∀ l, o.cache l (cfg.disk.chunk o.chunkDir o.chunkDir l))
    (hsettled : ∀ l, settled (.layer l)) :
    Outline (Exec cfg req) (Rely cfg) demand
      (RoundState cfg o selection (blendNeeds 0) settled (fun _ => False) fun _ => False)
      (prepareDoBlend cfg.numLayers true req) (RoundAt cfg o selection req (settled .taskB) 0) := by
  unfold prepareDoBlend
  rw [if_pos rfl, List.nil_append]
  apply (outline_resetLayerEvents hdemand hsettled cfg.numLayers).append
  refine .next (roundState_stable _ _ _ _ _ _) (fun s _ => hstart _ s) (fun s s' hs hstep => ?_)
    (.done (roundState_stable _ _ _ _ _ _) fun _ hs => hs)
  have hcount := fun w => pendingSets_doBlendPrefetch w req.client (req.start + 1) cfg.numLayers
  have hmeets : ∀ there recorded, ThreadMeets (blendNeeds cfg.numLayers) there recorded
      (Loader.doBlendPrefetch req.client (req.start + 1) cfg.numLayers) := fun there recorded =>
    threadMeets_doBlendPrefetch fun l _ c hc => Or.inr hc.2
  have hjoined := roundState_start hs (threadFrom_doBlendPrefetch hfrom) hmeets
    (tidy_doBlendPrefetch _ _ _) (fun w hpos => ?_) hstep
  · apply hjoined.weaken _ (fun _ h => h.elim) fun _ h => h.elim
    intro w hw
    have hzero := hcount w
    cases w with
    | taskB =>
      rw [countP_layer] at hzero
      exact ⟨hw.resolve_right fun h => Nat.not_lt_zero _ h.1, Nat.le_zero.mp hzero⟩
    | layer l =>
      refine ⟨hsettled l, Nat.le_zero.mp (hzero.trans ?_)⟩
      rw [countP_layer, Nat.le_zero]
      apply List.count_eq_zero_of_not_mem
      intro hmem
      obtain ⟨hle, hlt⟩ := List.mem_range'_1.mp hmem
      rcases hw with hlt | hnot
      · exact Nat.not_lt_zero l hlt
      · exact hnot ⟨hle, by omega⟩
  · have hle := hcount w
    rw [countP_layer] at hle
    cases w with
    | taskB => exact absurd (hpos.trans_le hle) (Nat.lt_irrefl 0)
    | layer l =>
      have hnodup : (List.range' (req.start + 1) (cfg.numLayers - (req.start + 1))).Nodup :=
        List.nodup_range'
      have hone := List.nodup_iff_count_le_one.mp hnodup l
      have hmem := List.count_pos_iff.mp (hpos.trans_le hle)
      obtain ⟨hge, hlt⟩ := List.mem_range'_1.mp hmem
      exact ⟨hle.trans hone, l, by omega, rfl⟩

/-- A layer at which a round uses nothing of the pool. -/
theorem roundAt_skip {loaded : Prop} {i : Nat} (hi : i < req.start ∨ (i = req.start ∧ req.ratio ≤ 0))
    {s : Shared} (hs : RoundAt cfg o selection req loaded i s) :
    RoundAt cfg o selection req loaded (i + 1) s := by
  apply hs.weaken _ (fun _ => id) fun l hl => ⟨Nat.lt_succ_of_lt hl.1, hl.2⟩
  intro w hw
  cases w with
  | taskB =>
    refine hw.imp_right fun ⟨hlt, hratio⟩ => ?_
    rcases hi with hi | ⟨-, hzero⟩
    · exact absurd hlt (by omega)
    · exact absurd hratio (not_lt_of_ge hzero)
  | layer l =>
    rcases hw with hlt | hnot
    · by_cases heq : l = i
      · refine Or.inr fun h => ?_
        have hstart := h.1
        omega
      · exact Or.inl (by omega)
    · exact Or.inr hnot

end Statements

/-- At the use of a layer, the pool holds its K/V of the chunk cache. -/
def BlendDemand (cfg : Config) (chunk : Dir) : MainOp → Shared → Prop
  | .blendLayer l _, s => s.rt.hack.kvOf l = some (cfg.disk.chunk chunk chunk l)
  | _, _ => True

section Rounds

variable {chunk query : Dir} {req : BlendRequest} {loaded : Prop}

/-- A layer behind the start layer: the wait, then the use of the layer. -/
theorem outline_blendLayer {i : Nat} (hlt : i < cfg.numLayers) (hstart : req.start < i) (direct : Bool)
    (hdirect : direct = true → Overwrites req cfg.numLayers i) :
    Outline (Exec cfg req) (Rely cfg) (BlendDemand cfg chunk)
      (RoundAt cfg (sampleOrigin cfg chunk query) selection req loaded i)
      (waitFor (.layer i) ++ [.blendLayer i direct])
      (RoundAt cfg (sampleOrigin cfg chunk query) selection req loaded (i + 1)) := by
  have hwait : ∀ op ∈ waitFor (.layer i), ∀ s, BlendDemand cfg chunk op s := by
    intro op hop s
    simp only [waitFor, List.mem_cons, List.not_mem_nil, or_false] at hop
    rcases hop with rfl | rfl <;> trivial
  have huse : Outline (Exec cfg req) (Rely cfg) (BlendDemand cfg chunk)
      (fun s => RoundState cfg (sampleOrigin cfg chunk query) selection (blendNeeds cfg.numLayers)
          (fun w => roundSettled req cfg.numLayers loaded i w ∨ w = .layer i) (fun _ => False)
          (fun l => l < i ∧ Overwrites req cfg.numLayers l) s ∧
        ∀ c, blendNeeds cfg.numLayers (.layer i) c → Present s.rt c)
      [.blendLayer i direct]
      (RoundAt cfg (sampleOrigin cfg chunk query) selection req loaded (i + 1)) := by
    refine .next (presentState_stable _ _ _ _ _ _ _ _) ?_ ?_ (.done (roundState_stable _ _ _ _ _ _) fun _ hs => hs)
    · -- the layer is there, and no statement of the round has overwritten it yet
      rintro s ⟨hs, hpresent⟩
      obtain ⟨kv, hkv⟩ := Option.isSome_iff_exists.mp (hpresent (.hack i) ⟨hlt, rfl⟩)
      have horigin := (hs.held.hack i kv hkv).resolve_left fun h => Nat.lt_irrefl i h.1
      show s.rt.hack.kvOf i = _
      rw [hkv, show kv = _ from horigin]
    · rintro s s' ⟨hs, -⟩ hstep
      have hkeeps : KeepsProtocol (.blendLayer i direct) := trivial
      apply (roundState_exec hkeeps hs hstep).weaken _ (fun _ => id)
      · rintro l (⟨hl, hover⟩ | hl)
        · exact ⟨Nat.lt_succ_of_lt hl, hover⟩
        · cases hl
          exact ⟨Nat.lt_succ_self _, hdirect rfl⟩
      · intro w hw
        cases w with
        | taskB => exact Or.inl (hw.imp_right fun h => ⟨hstart, h.2⟩)
        | layer l =>
          rcases hw with hl | hnot
          · rcases Nat.lt_or_eq_of_le (Nat.le_of_lt_succ hl) with hl | rfl
            · exact Or.inl (Or.inl hl)
            · exact Or.inr rfl
          · exact Or.inl (Or.inr hnot)
  exact (outline_roundWait (.layer i) hwait).append huse

/-- The forward pass of a round. -/
theorem outline_roundForward (cfg : Config) (chunk query : Dir) (selection : List Nat)
    (req : BlendRequest) (loaded : Prop) :
    Outline (Exec cfg req) (Rely cfg) (BlendDemand cfg chunk)
      (RoundAt cfg (sampleOrigin cfg chunk query) selection req loaded 0)
      ((List.range cfg.numLayers).flatMap (doBlendLayer cfg.numLayers true req))
      (RoundAt cfg (sampleOrigin cfg chunk query) selection req loaded cfg.numLayers) := by
  apply Outline.loop (P := RoundAt cfg (sampleOrigin cfg chunk query) selection req loaded)
    fun i => roundState_stable _ _ _ _ _ _
  intro i hi
  have hstable : Stable (Rely cfg)
      (RoundAt cfg (sampleOrigin cfg chunk query) selection req loaded i) :=
    roundState_stable _ _ _ _ _ _
  unfold doBlendLayer
  split
  next hbelow => exact .done hstable fun s hs => roundAt_skip (Or.inl hbelow) hs
  next =>
    split
    next hstart =>
      split
      next hratio => exact .done hstable fun s hs => roundAt_skip (Or.inr ⟨hstart, hratio⟩) hs
      next hratio =>
        rw [if_pos rfl]
        have hwait : ∀ op ∈ waitFor .taskB, ∀ s, BlendDemand cfg chunk op s := by
          intro op hop s
          simp only [waitFor, List.mem_cons, List.not_mem_nil, or_false] at hop
          rcases hop with rfl | rfl <;> trivial
        apply (outline_roundWait .taskB hwait).append
        refine .next (presentState_stable _ _ _ _ _ _ _ _) (fun _ _ => trivial) ?_
          (.done (roundState_stable _ _ _ _ _ _) fun _ hs => hs)
        rintro s s' ⟨hs, -⟩ hstep
        cases exec_effect hstep
        apply hs.weaken _ (fun _ => id) fun l hl => ⟨Nat.lt_succ_of_lt hl.1, hl.2⟩
        intro w hw
        cases w with
        | taskB => exact Or.inr rfl
        | layer l =>
          rcases hw with hl | hnot
          · rcases Nat.lt_or_eq_of_le (Nat.le_of_lt_succ hl) with hl | rfl
            · exact Or.inl (Or.inl hl)
            · exact Or.inl (Or.inr fun h => by have hlt := h.1; omega)
          · exact Or.inl (Or.inr hnot)
    next hne =>
      rw [if_pos rfl]
      apply outline_blendLayer hi (by omega)
      intro hdirect
      simp only [true_and, decide_eq_true_eq] at hdirect
      exact hdirect

/-- A round of DO_BLEND, of which the cleared layers are written by no thread. -/
theorem outline_doBlendRound (cfg : Config) (chunk query : Dir) (selection : List Nat)
    (req : BlendRequest) {settled : Wait → Prop} (hstyle : req.blendStyle ≠ .doBlendFinish)
    (hsettled : ∀ l, settled (.layer l))
    (htask : ∀ l, l ∉ req.keepLayersSet cfg.numLayers → l ∉ selection ∨ settled .taskB ∨
      (req.start < cfg.numLayers ∧ 0 < req.ratio)) :
    Outline (Exec cfg req) (Rely cfg) (BlendDemand cfg chunk)
      (RoundState cfg (sampleOrigin cfg chunk query) selection (blendNeeds 0) settled (fun _ => False)
        fun _ => False)
      (prepareDoBlend cfg.numLayers true req ++
        (List.range cfg.numLayers).flatMap (doBlendLayer cfg.numLayers true req) ++
        clearDoBlendLayers cfg.numLayers (req.keepLayersSet cfg.numLayers))
      (RoundState cfg (sampleOrigin cfg chunk query) selection (blendNeeds 0)
        (fun w => ∃ l, w = .layer l) (fun _ => False) fun _ => False) := by
  have hprepare : Outline (Exec cfg req) (Rely cfg) (BlendDemand cfg chunk)
      (RoundState cfg (sampleOrigin cfg chunk query) selection (blendNeeds 0) settled (fun _ => False)
        fun _ => False)
      (prepareDoBlend cfg.numLayers true req)
      (RoundAt cfg (sampleOrigin cfg chunk query) selection req (settled .taskB) 0) :=
    outline_roundPrepare (fun _ _ => trivial) (fun _ _ => trivial) (fun _ => rfl) hsettled
  apply (hprepare.append (outline_roundForward cfg chunk query selection req _)).append
  have hall : ∀ l, roundSettled req cfg.numLayers (settled .taskB) cfg.numLayers (.layer l) := by
    intro l
    rcases Nat.lt_or_ge l cfg.numLayers with hlt | hge
    · exact Or.inl hlt
    · exact Or.inr fun h => absurd h.2 (Nat.not_lt_of_le hge)
  apply ((outline_clearDoBlendLayers (fun _ _ => trivial) hall htask _).strengthen
    (roundState_stable _ _ _ _ _ _) fun s hs => hs.forget hall).weaken
  · exact fun s hs => hs.weaken (fun w ⟨l, hl⟩ => hl ▸ hall l) (fun _ => id) fun _ => id
  · exact fun l ⟨hlt, hover⟩ => ⟨hlt, hover.resolve_left hstyle⟩

end Rounds

end QCFuse.Guarantees
