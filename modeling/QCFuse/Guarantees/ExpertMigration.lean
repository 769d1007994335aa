import QCFuse.Guarantees.ExpertRouting
import QCFuse.Library.Overwrites
import QCFuse.Source.Python

/-!
# Expert weights after a migration

Every rank plans without an error, what two ranks post for each other matches one to one, and
afterwards each slot holds the rows that some slot of its new expert held in the old layout.
-/

set_option autoImplicit false

namespace QCFuse.Guarantees

open QCFuse.Library QCFuse.Source

variable {layouts : ExpertLayouts} {rank : Nat}

theorem localRange_sorted : (layouts.localRange rank).Pairwise (· < ·) := List.pairwise_lt_range'

theorem localExpertLocation_ok {x : Nat} (hx : x ∈ layouts.localRange rank) :
    layouts.localExpertLocation rank x = .ok (x % layouts.numLocalPhysicalExperts) := by
  rw [ExpertLayouts.localRange, List.mem_range'_1] at hx
  rw [ExpertLayouts.localExpertLocation, Nat.add_mul, Nat.one_mul, if_pos hx]

/-- Local slots are told apart by their local locations. -/
theorem localRange_mod_inj {x y : Nat} (hx : x ∈ layouts.localRange rank) (hy : y ∈ layouts.localRange rank)
    (h : x % layouts.numLocalPhysicalExperts = y % layouts.numLocalPhysicalExperts) : x = y := by
  obtain ⟨-, hxr⟩ := mem_localRange.mp hx
  obtain ⟨-, hyr⟩ := mem_localRange.mp hy
  rw [← Nat.div_add_mod x layouts.numLocalPhysicalExperts, ← Nat.div_add_mod y layouts.numLocalPhysicalExperts,
    hxr, hyr, h]

/-- A search through ascending numbers finds the least one. -/
theorem find?_least {xs : List Nat} (hxs : xs.Pairwise (· < ·)) {keep : Nat → Bool} {x : Nat}
    (h : xs.find? keep = some x) : x ∈ xs ∧ keep x = true ∧ ∀ y ∈ xs, y < x → keep y = false := by
  obtain ⟨hkeep, before, after, rfl, hbefore⟩ := List.find?_eq_some_iff_append.mp h
  refine ⟨by simp, hkeep, fun y hy hlt => ?_⟩
  rcases List.mem_append.mp hy with hy | hy
  · simpa using hbefore y hy
  · rcases List.mem_cons.mp hy with rfl | hy
    · omega
    · have := (List.pairwise_cons.mp (List.pairwise_append.mp hxs).2.1).1 y hy
      omega

/-! ## The cases of the receiver -/

/-- No earlier local slot gets the same expert. -/
def FirstNew (layouts : ExpertLayouts) (rank x : Nat) : Prop :=
  ∀ y ∈ layouts.localRange rank, y < x → layouts.new y ≠ layouts.new x

/-- What a case says about its destination. -/
def CaseHolds (layouts : ExpertLayouts) (rank dst : Nat) : RecvCase → Prop
  | .unchanged => layouts.old dst = layouts.new dst
  | .sameGpu src => src ∈ layouts.localRange rank ∧ layouts.old src = layouts.new dst
  | .freeRider src => src ∈ layouts.localRange rank ∧ layouts.new src = layouts.new dst ∧
      FirstNew layouts rank src ∧ ¬ HostsOld layouts rank (layouts.new src)
  | .fromRank a => FirstNew layouts rank dst ∧ ¬ HostsOld layouts rank (layouts.new dst) ∧
      layouts.chosenSrcRank rank (layouts.new dst) = .ok a

theorem mem_earlier {dst y : Nat} (hdst : dst ∈ layouts.localRange rank) :
    y ∈ List.range' (rank * layouts.numLocalPhysicalExperts)
      (dst - rank * layouts.numLocalPhysicalExperts) ↔ y ∈ layouts.localRange rank ∧ y < dst := by
  rw [ExpertLayouts.localRange, List.mem_range'_1] at *
  rw [List.mem_range'_1]
  omega

/-- Without the expert on the rank, an earlier slot is shared or the source is asked. -/
theorem recvCase_eq {dst : Nat} (hdst : dst ∈ layouts.localRange rank)
    (hold : ¬ HostsOld layouts rank (layouts.new dst)) : layouts.recvCase rank dst =
      match (List.range' (rank * layouts.numLocalPhysicalExperts)
          (dst - rank * layouts.numLocalPhysicalExperts)).find? fun src =>
            layouts.new src = layouts.new dst with
      | some src => .ok (.freeRider src)
      | none => do return .fromRank (← layouts.chosenSrcRank rank (layouts.new dst)) := by
  have hchanged : layouts.old dst ≠ layouts.new dst := fun h => hold ⟨dst, hdst, h⟩
  have hnone : (layouts.localRange rank).find? (fun src => layouts.old src = layouts.new dst) = none := by
    rw [List.find?_eq_none]
    exact fun x hx h => hold ⟨x, hx, of_decide_eq_true h⟩
  rw [ExpertLayouts.recvCase, if_neg hchanged]
  split
  next src hfound => cases hnone.symm.trans hfound
  next => rfl

theorem recvCase_fromRank {dst a : Nat} (hdst : dst ∈ layouts.localRange rank)
    (h : CaseHolds layouts rank dst (.fromRank a)) : layouts.recvCase rank dst = .ok (.fromRank a) := by
  obtain ⟨hfirst, hold, hchosen⟩ := h
  have hnone : (List.range' (rank * layouts.numLocalPhysicalExperts)
      (dst - rank * layouts.numLocalPhysicalExperts)).find? (fun src => layouts.new src = layouts.new dst) =
        none := by
    rw [List.find?_eq_none]
    intro y hy h
    obtain ⟨hlocal, hlt⟩ := (mem_earlier hdst).mp hy
    exact hfirst y hlocal hlt (of_decide_eq_true h)
  rw [recvCase_eq hdst hold, hnone]
  simp only [hchosen, bind, Except.bind, pure, Except.pure]

/-- Every expert of the new layout is somewhere in the old one. -/
def CoversNew (layouts : ExpertLayouts) : Prop :=
  ∀ e ∈ layouts.newPhysicalToLogicalMap, e ∈ layouts.oldPhysicalToLogicalMap

/-- A rank that needs an expert chooses a rank that has it. -/
theorem chosenSrcRank_of_new (hcovers : CoversNew layouts) (hrank : rank < layouts.worldSize) {dst : Nat}
    (hdst : dst ∈ layouts.localRange rank) (hold : ¬ HostsOld layouts rank (layouts.new dst)) :
    ∃ a ∈ layouts.allSrcRanks (layouts.new dst), layouts.chosenSrcRank rank (layouts.new dst) = .ok a := by
  have hneed := mem_needCommDstRanks.mpr ⟨hrank, ⟨dst, hdst, rfl⟩, hold⟩
  refine chosenSrcRank_ok hneed ?_
  obtain ⟨hpos, hdiv⟩ := mem_localRange.mp hdst
  have hlt : dst < layouts.worldSize * layouts.numLocalPhysicalExperts :=
    (Nat.div_lt_iff_lt_mul hpos).mp (hdiv ▸ hrank)
  have hmem : layouts.new dst ∈ layouts.newPhysicalToLogicalMap := by
    rw [ExpertLayouts.new, List.getD_eq_getElem?_getD, List.getElem?_eq_getElem (layouts.newLength ▸ hlt),
      Option.getD_some]
    exact List.getElem_mem _
  obtain ⟨x, hx, hget⟩ := List.getElem_of_mem (hcovers _ hmem)
  have hxrank : x / layouts.numLocalPhysicalExperts < layouts.worldSize :=
    (Nat.div_lt_iff_lt_mul hpos).mpr (layouts.oldLength ▸ hx)
  refine List.ne_nil_of_mem (mem_allSrcRanks.mpr ⟨hxrank, x, mem_localRange.mpr ⟨hpos, rfl⟩, ?_⟩)
  rw [ExpertLayouts.old, List.getD_eq_getElem?_getD, List.getElem?_eq_getElem hx, Option.getD_some, hget]

/-- A destination is always in one of the cases, and the case holds. -/
theorem recvCase_ok (hcovers : CoversNew layouts) (hrank : rank < layouts.worldSize) {dst : Nat}
    (hdst : dst ∈ layouts.localRange rank) :
    ∃ c, layouts.recvCase rank dst = .ok c ∧ CaseHolds layouts rank dst c := by
  by_cases hold : HostsOld layouts rank (layouts.new dst)
  · rw [ExpertLayouts.recvCase]
    by_cases hsame : layouts.old dst = layouts.new dst
    · exact ⟨.unchanged, if_pos hsame, hsame⟩
    · rw [if_neg hsame]
      obtain ⟨x, hx, hxold⟩ := hold
      have hsome : ((layouts.localRange rank).find? fun src => layouts.old src = layouts.new dst).isSome :=
        List.find?_isSome.mpr ⟨x, hx, decide_eq_true hxold⟩
      obtain ⟨src, hsrc⟩ := Option.isSome_iff_exists.mp hsome
      obtain ⟨hlocal, hkeep, -⟩ := find?_least localRange_sorted hsrc
      rw [hsrc]
      exact ⟨.sameGpu src, rfl, hlocal, of_decide_eq_true hkeep⟩
  · obtain ⟨a, -, hchosen⟩ := chosenSrcRank_of_new hcovers hrank hdst hold
    rw [recvCase_eq hdst hold]
    cases hfind : (List.range' (rank * layouts.numLocalPhysicalExperts)
        (dst - rank * layouts.numLocalPhysicalExperts)).find? fun src =>
          layouts.new src = layouts.new dst with
    | some src =>
      obtain ⟨hsrc, hkeep, hleast⟩ := find?_least List.pairwise_lt_range' hfind
      obtain ⟨hlocal, hlt⟩ := (mem_earlier hdst).mp hsrc
      have hnew : layouts.new src = layouts.new dst := of_decide_eq_true hkeep
      refine ⟨.freeRider src, rfl, hlocal, hnew, fun y hy hylt => ?_, hnew ▸ hold⟩
      have hyearlier := (mem_earlier hdst).mpr ⟨hy, hylt.trans hlt⟩
      rw [hnew]
      exact of_decide_eq_false (hleast y hyearlier hylt)
    | none =>
      refine ⟨.fromRank a, ?_, fun y hy hylt => ?_, hold, hchosen⟩
      · simp only [hchosen, bind, Except.bind, pure, Except.pure]
      · have hnot := List.find?_eq_none.mp hfind y ((mem_earlier hdst).mpr ⟨hy, hylt⟩)
        simpa using hnot

/-! ## The operations of a plan in the order posted -/

/-- Values of a function that tells its arguments apart have an inverse. -/
theorem exists_inverse {f : Nat → Int} {slots : Set Nat} (h : Set.InjOn f slots) :
    ∃ g : Int → Nat, ∀ x ∈ slots, g (f x) = x :=
  ⟨Function.invFunOn f slots, fun _ hx => h.leftInvOn_invFunOn hx⟩

variable {kind : P2PKind} {peer numTensors : Nat} {sel : Int → Prop} [DecidablePred sel]
  {row : Int → Nat → P2POp}

theorem opsWith_flatMap {infos : List (Int × List P2POp)}
    (h : ∀ info ∈ infos, info.2.filter (fun op => op.kind = kind ∧ op.peer = peer) =
      if sel info.1 then (List.range numTensors).map (row info.1) else []) :
    opsWith kind peer (infos.flatMap fun info => info.2.map fun op => (info.1, op)) =
      ((infos.map Prod.fst).filter sel).flatMap fun e => (List.range numTensors).map fun i => (e, row e i) := by
  induction infos with
  | nil => rfl
  | cons info infos ih =>
    have hhead : opsWith kind peer (info.2.map fun op => (info.1, op)) =
        (info.2.filter fun op => op.kind = kind ∧ op.peer = peer).map fun op => (info.1, op) := by
      rw [opsWith, List.filter_map]
      rfl
    have htail := ih fun other hother => h other (List.mem_cons_of_mem _ hother)
    rw [opsWith] at hhead htail ⊢
    rw [List.flatMap_cons, List.filter_append, hhead, htail, h info List.mem_cons_self, List.map_cons,
      List.filter_cons]
    by_cases hsel : sel info.1
    · rw [if_pos hsel, if_pos (decide_eq_true hsel), List.flatMap_cons, List.map_map]
      rfl
    · rw [if_neg hsel, if_neg (by simpa using hsel)]
      rfl

/-- With one info for each expert, the operations of a kind with a peer are posted expert by expert. -/
theorem opsWith_sortedOps (kind : P2PKind) (peer : Nat) (sel : Int → Prop) [DecidablePred sel]
    (row : Int → Nat → P2POp) {infos : List (Int × List P2POp)} (hkeys : (infos.map Prod.fst).Nodup)
    (h : ∀ info ∈ infos, info.2.filter (fun op => op.kind = kind ∧ op.peer = peer) =
      if sel info.1 then (List.range numTensors).map (row info.1) else []) :
    ∃ keys : List Int, keys.Pairwise (· < ·) ∧ (∀ e, e ∈ keys ↔ e ∈ infos.map Prod.fst ∧ sel e) ∧
      opsWith kind peer (sortedOps infos) =
        keys.flatMap fun e => (List.range numTensors).map fun i => (e, row e i) := by
  have hperm := List.mergeSort_perm infos fun a b => decide (a.1 ≤ b.1)
  have hsorted : (infos.mergeSort fun a b => decide (a.1 ≤ b.1)).Pairwise fun a b => a.1 ≤ b.1 := by
    refine (List.pairwise_mergeSort (fun a b c hab hbc => ?_) (fun a b => ?_) infos).imp of_decide_eq_true
    · exact decide_eq_true ((of_decide_eq_true hab).trans (of_decide_eq_true hbc))
    · rcases le_total a.1 b.1 with hle | hle
      · simp [hle]
      · simp [hle]
  have hstrict : ((infos.mergeSort fun a b => decide (a.1 ≤ b.1)).map Prod.fst).Pairwise (· < ·) := by
    have hnodup := (hperm.map Prod.fst).nodup_iff.mpr hkeys
    exact (List.pairwise_map.mpr hsorted).imp₂ (fun _ _ hle hne => lt_of_le_of_ne hle hne) hnodup
  refine ⟨_, hstrict.sublist List.filter_sublist, fun e => ?_,
    opsWith_flatMap fun info hinfo => h info (hperm.mem_iff.mp hinfo)⟩
  rw [List.mem_filter, (hperm.map Prod.fst).mem_iff, decide_eq_true_eq]

/-! ## The plan of a rank -/

section Plan

variable (layouts rank)

/-- The copies from temporary buffers to weights that a destination asks for. -/
def copiesOf (dst : Nat) : List (Nat × Nat) :=
  match layouts.recvCase rank dst with
  | .ok (.sameGpu _) | .ok (.fromRank _) => [(dst, dst)]
  | .ok (.freeRider src) => [(src, dst)]
  | _ => []

/-- The copies from weights to temporary buffers that a destination asks for, by local location. -/
def tempCopiesOf (dst : Nat) : List (Nat × Nat) :=
  match layouts.recvCase rank dst with
  | .ok (.sameGpu src) =>
    [(dst % layouts.numLocalPhysicalExperts, src % layouts.numLocalPhysicalExperts)]
  | _ => []

/-- The receives that a destination asks for. -/
def recvInfosOf (dst : Nat) : List (Int × List P2POp) :=
  match layouts.recvCase rank dst with
  | .ok (.fromRank a) => [(layouts.new dst, (List.range layouts.numTensors).map fun i =>
      ⟨.irecv, i, dst % layouts.numLocalPhysicalExperts, a⟩)]
  | _ => []

/-- The ranks an expert is sent to. -/
def dstsOf (e : Int) : List Nat :=
  match layouts.allDstRanks rank e with
  | .ok dsts => dsts
  | .error _ => []

/-- The sends of the expert in a slot. -/
def sendInfoOf (src : Nat) : Int × List P2POp :=
  (layouts.old src, (dstsOf layouts rank (layouts.old src)).flatMap fun dst =>
    (List.range layouts.numTensors).map fun i => ⟨.isend, i, src % layouts.numLocalPhysicalExperts, dst⟩)

variable {layouts rank} {W : Type} (weights : ExpertTensors W)

theorem foldlM_handleRecv (hcovers : CoversNew layouts) (hrank : rank < layouts.worldSize) {dsts : List Nat}
    (hdsts : ∀ dst ∈ dsts, dst ∈ layouts.localRange rank) (plan : RankPlan W) :
    dsts.foldlM (layouts.handleRecvOfDstExpertLocation rank weights) plan = .ok
      ⟨(dsts.flatMap (tempCopiesOf layouts rank)).foldl (fun buffers copy =>
          layouts.copyRows buffers copy.1 weights copy.2) plan.tempBuffers,
        plan.buffer2weightCopyInfos ++ dsts.flatMap (copiesOf layouts rank),
        plan.p2pOpInfos ++ dsts.flatMap (recvInfosOf layouts rank)⟩ := by
  induction dsts generalizing plan with
  | nil => simp [List.foldlM, pure, Except.pure]
  | cons dst dsts ih =>
    have hdst := hdsts dst List.mem_cons_self
    obtain ⟨c, hc, hholds⟩ := recvCase_ok hcovers hrank hdst
    have ih := ih fun other hother => hdsts other (List.mem_cons_of_mem _ hother)
    rw [List.foldlM_cons, ExpertLayouts.handleRecvOfDstExpertLocation, List.flatMap_cons, List.flatMap_cons,
      List.flatMap_cons, tempCopiesOf, copiesOf, recvInfosOf, hc]
    cases c with
    | unchanged => exact ih plan
    | sameGpu src =>
      simp only [localExpertLocation_ok hdst, localExpertLocation_ok hholds.1, bind, Except.bind, pure,
        Except.pure]
      rw [ih, List.append_assoc]
      rfl
    | freeRider src =>
      simp only [bind, Except.bind, pure, Except.pure]
      rw [ih, List.append_assoc]
      rfl
    | fromRank a =>
      simp only [localExpertLocation_ok hdst, bind, Except.bind, pure, Except.pure]
      rw [ih, List.append_assoc, List.append_assoc]
      rfl

theorem allDstRanks_dstsOf {e : Int} (hrank : rank < layouts.worldSize) (he : HostsOld layouts rank e) :
    layouts.allDstRanks rank e = .ok (dstsOf layouts rank e) ∧ (dstsOf layouts rank e).Nodup ∧
      ∀ b, b ∈ dstsOf layouts rank e ↔ b ∈ layouts.needCommDstRanks e ∧ layouts.chosenSrcRank b e = .ok rank := by
  obtain ⟨dsts, hdsts, hnodup, hmem⟩ := allDstRanks_spec (mem_allSrcRanks.mpr ⟨hrank, he⟩)
  have heq : dstsOf layouts rank e = dsts := by rw [dstsOf, hdsts]
  rw [heq]
  exact ⟨hdsts, hnodup, hmem⟩

/-- The sends are planned once for each expert of the rank. -/
theorem createIsendOps_ok (hrank : rank < layouts.worldSize) {srcs : List Nat}
    (hsrcs : ∀ src ∈ srcs, src ∈ layouts.localRange rank) (handled : List Int)
    (infos : List (Int × List P2POp)) :
    ∃ slots : List Nat, layouts.createIsendOps rank srcs handled infos =
        .ok (infos ++ slots.map (sendInfoOf layouts rank)) ∧ (∀ src ∈ slots, src ∈ srcs) ∧
      (slots.map layouts.old).Nodup ∧ (∀ src ∈ slots, layouts.old src ∉ handled) ∧
      ∀ src ∈ srcs, layouts.old src ∉ handled → layouts.old src ∈ slots.map layouts.old := by
  induction srcs generalizing handled infos with
  | nil => exact ⟨[], by simp [ExpertLayouts.createIsendOps]⟩
  | cons src srcs ih =>
    have hsrc := hsrcs src List.mem_cons_self
    have hrest := fun other hother => hsrcs other (List.mem_cons_of_mem _ hother)
    rw [ExpertLayouts.createIsendOps]
    by_cases hhandled : layouts.old src ∈ handled
    · obtain ⟨slots, hrun, hsub, hnodup, hnew, hall⟩ := ih hrest handled infos
      refine ⟨slots, by rw [if_pos hhandled, hrun], fun x hx => List.mem_cons_of_mem _ (hsub x hx), hnodup,
        hnew, fun x hx hnot => ?_⟩
      rcases List.mem_cons.mp hx with rfl | hx
      · exact absurd hhandled hnot
      · exact hall x hx hnot
    · obtain ⟨hdsts, -, -⟩ := allDstRanks_dstsOf hrank ⟨src, hsrc, rfl⟩
      obtain ⟨slots, hrun, hsub, hnodup, hnew, hall⟩ := ih hrest (layouts.old src :: handled)
        (infos ++ [sendInfoOf layouts rank src])
      refine ⟨src :: slots, ?_, ?_, ?_, ?_, ?_⟩
      · rw [if_neg hhandled, ExpertLayouts.createIsendOpsOfLogicalExpertId]
        simp only [hdsts, localExpertLocation_ok hsrc, bind, Except.bind, pure, Except.pure]
        rw [List.map_cons, List.append_cons infos (sendInfoOf layouts rank src)]
        exact hrun
      · exact fun x hx => (List.mem_cons.mp hx).elim (fun h => h ▸ List.mem_cons_self)
          fun h => List.mem_cons_of_mem _ (hsub x h)
      · refine List.nodup_cons.mpr ⟨fun hmem => ?_, hnodup⟩
        obtain ⟨x, hx, hxold⟩ := List.mem_map.mp hmem
        exact hnew x hx (hxold ▸ List.mem_cons_self)
      · intro x hx
        rcases List.mem_cons.mp hx with rfl | hx
        · exact hhandled
        · exact fun hmem => hnew x hx (List.mem_cons_of_mem _ hmem)
      · intro x hx hnot
        rw [List.map_cons, List.mem_cons]
        rcases List.mem_cons.mp hx with rfl | hx
        · exact Or.inl rfl
        · by_cases hsame : layouts.old x = layouts.old src
          · exact Or.inl hsame
          · exact Or.inr (hall x hx fun hmem => (List.mem_cons.mp hmem).elim hsame hnot)

/-! ## What two ranks post for each other -/

/-- `dst` is received from rank `a`. -/
def ReceivesFrom (layouts : ExpertLayouts) (rank dst a : Nat) : Prop :=
  dst ∈ layouts.localRange rank ∧ layouts.recvCase rank dst = .ok (.fromRank a)

theorem ReceivesFrom.holds (hcovers : CoversNew layouts) (hrank : rank < layouts.worldSize) {dst a : Nat}
    (h : ReceivesFrom layouts rank dst a) : CaseHolds layouts rank dst (.fromRank a) := by
  obtain ⟨c, hc, hholds⟩ := recvCase_ok hcovers hrank h.1
  obtain rfl := Except.ok.inj (hc.symm.trans h.2)
  exact hholds

/-- The source is a rank that has the expert. -/
theorem ReceivesFrom.source (hcovers : CoversNew layouts) (hrank : rank < layouts.worldSize) {dst a : Nat}
    (h : ReceivesFrom layouts rank dst a) : a < layouts.worldSize ∧ HostsOld layouts a (layouts.new dst) := by
  obtain ⟨-, hold, hchosen⟩ := h.holds hcovers hrank
  obtain ⟨src, hsrc, hsrcChosen⟩ := chosenSrcRank_of_new hcovers hrank h.1 hold
  obtain rfl := Except.ok.inj (hsrcChosen.symm.trans hchosen)
  exact mem_allSrcRanks.mp hsrc

/-- An expert is received into one slot. -/
theorem ReceivesFrom.slot_unique (hcovers : CoversNew layouts) (hrank : rank < layouts.worldSize)
    {dst dst' a a' : Nat} (h : ReceivesFrom layouts rank dst a) (h' : ReceivesFrom layouts rank dst' a')
    (hsame : layouts.new dst = layouts.new dst') : dst = dst' := by
  rcases Nat.lt_trichotomy dst dst' with hlt | heq | hgt
  · exact absurd hsame ((h'.holds hcovers hrank).1 dst h.1 hlt)
  · exact heq
  · exact absurd hsame.symm ((h.holds hcovers hrank).1 dst' h'.1 hgt)

/-- The experts that `b` receives from `a` are those that `a` sends to `b`. -/
theorem received_iff_sent (hcovers : CoversNew layouts) {a b : Nat} (ha : a < layouts.worldSize)
    (hb : b < layouts.worldSize) (e : Int) :
    (∃ dst, ReceivesFrom layouts b dst a ∧ layouts.new dst = e) ↔
      HostsOld layouts a e ∧ b ∈ dstsOf layouts a e := by
  constructor
  · rintro ⟨dst, hrecv, rfl⟩
    obtain ⟨-, hold, hchosen⟩ := hrecv.holds hcovers hb
    have hhosts := (hrecv.source hcovers hb).2
    refine ⟨hhosts, ((allDstRanks_dstsOf ha hhosts).2.2 b).mpr ⟨?_, hchosen⟩⟩
    exact mem_needCommDstRanks.mpr ⟨hb, ⟨dst, hrecv.1, rfl⟩, hold⟩
  · rintro ⟨hhosts, hmem⟩
    obtain ⟨hneed, hchosen⟩ := ((allDstRanks_dstsOf ha hhosts).2.2 b).mp hmem
    obtain ⟨-, ⟨x, hx, hxnew⟩, hold⟩ := mem_needCommDstRanks.mp hneed
    have hsome : ((layouts.localRange b).find? fun y => layouts.new y = e).isSome :=
      List.find?_isSome.mpr ⟨x, hx, decide_eq_true hxnew⟩
    obtain ⟨dst, hdst⟩ := Option.isSome_iff_exists.mp hsome
    obtain ⟨hlocal, hkeep, hleast⟩ := find?_least localRange_sorted hdst
    obtain rfl : layouts.new dst = e := of_decide_eq_true hkeep
    refine ⟨dst, ⟨hlocal, recvCase_fromRank hlocal ⟨fun y hy hlt => ?_, hold, hchosen⟩⟩, rfl⟩
    exact of_decide_eq_false (hleast y hy hlt)

/-- What the plan of a rank says. -/
structure Planned (layouts : ExpertLayouts) (rank : Nat) {W : Type} (weights tempBuffers : ExpertTensors W)
    (plan : RankPlan W) (sendSlot recvSlot : Int → Nat) : Prop where
  temp : plan.tempBuffers = ((layouts.localRange rank).flatMap (tempCopiesOf layouts rank)).foldl
    (fun buffers copy => layouts.copyRows buffers copy.1 weights copy.2) tempBuffers
  copies : plan.buffer2weightCopyInfos = (layouts.localRange rank).flatMap (copiesOf layouts rank)
  sendSlots : ∀ e, HostsOld layouts rank e →
    sendSlot e ∈ layouts.localRange rank ∧ layouts.old (sendSlot e) = e
  recvSlots : ∀ dst a, ReceivesFrom layouts rank dst a → recvSlot (layouts.new dst) = dst
  peers : ∀ op ∈ sortedOps plan.p2pOpInfos, op.2.peer < layouts.worldSize
  sends : ∀ b, ∃ keys : List Int, keys.Pairwise (· < ·) ∧
    (∀ e, e ∈ keys ↔ HostsOld layouts rank e ∧ b ∈ dstsOf layouts rank e) ∧
    opsWith .isend b (sortedOps plan.p2pOpInfos) = keys.flatMap fun e =>
      (List.range layouts.numTensors).map fun i =>
        (e, ⟨.isend, i, sendSlot e % layouts.numLocalPhysicalExperts, b⟩)
  recvs : ∀ a, ∃ keys : List Int, keys.Pairwise (· < ·) ∧
    (∀ e, e ∈ keys ↔ ∃ dst, ReceivesFrom layouts rank dst a ∧ layouts.new dst = e) ∧
    opsWith .irecv a (sortedOps plan.p2pOpInfos) = keys.flatMap fun e =>
      (List.range layouts.numTensors).map fun i =>
        (e, ⟨.irecv, i, recvSlot e % layouts.numLocalPhysicalExperts, a⟩)

theorem mem_recvInfos {info : Int × List P2POp} :
    info ∈ (layouts.localRange rank).flatMap (recvInfosOf layouts rank) ↔
      ∃ dst a, ReceivesFrom layouts rank dst a ∧ info = (layouts.new dst,
        (List.range layouts.numTensors).map fun i =>
          ⟨.irecv, i, dst % layouts.numLocalPhysicalExperts, a⟩) := by
  rw [List.mem_flatMap]
  constructor
  · rintro ⟨dst, hdst, hinfo⟩
    unfold recvInfosOf at hinfo
    split at hinfo
    next a hcase => exact ⟨dst, a, ⟨hdst, hcase⟩, List.mem_singleton.mp hinfo⟩
    next => exact absurd hinfo List.not_mem_nil
  · rintro ⟨dst, a, ⟨hdst, hcase⟩, rfl⟩
    refine ⟨dst, hdst, ?_⟩
    rw [recvInfosOf, hcase]
    exact List.mem_singleton_self _

theorem recvInfos_nodup (hcovers : CoversNew layouts) (hrank : rank < layouts.worldSize) :
    (((layouts.localRange rank).flatMap (recvInfosOf layouts rank)).map Prod.fst).Nodup := by
  have hkey : ∀ dst ∈ layouts.localRange rank, ∀ e ∈ (recvInfosOf layouts rank dst).map Prod.fst,
      ∃ a, ReceivesFrom layouts rank dst a ∧ layouts.new dst = e := by
    intro dst hdst e he
    obtain ⟨info, hinfo, rfl⟩ := List.mem_map.mp he
    unfold recvInfosOf at hinfo
    split at hinfo
    next a hcase =>
      rw [List.mem_singleton.mp hinfo]
      exact ⟨a, ⟨hdst, hcase⟩, rfl⟩
    next => exact absurd hinfo List.not_mem_nil
  rw [List.map_flatMap, List.nodup_flatMap]
  constructor
  · intro dst _
    unfold recvInfosOf
    split
    · exact List.nodup_singleton _
    · exact List.nodup_nil
  · refine localRange_sorted.imp_of_mem fun {x y} hx hy hlt e hex hey => ?_
    obtain ⟨a, hxa, rfl⟩ := hkey x hx e hex
    obtain ⟨a', hya, hsame⟩ := hkey y hy _ hey
    exact Nat.ne_of_lt hlt (hxa.slot_unique hcovers hrank hya hsame.symm)

/-- Of the sends of an expert, those to one destination. -/
theorem filter_sends {dsts : List Nat} (hdsts : dsts.Nodup) (numTensors location b : Nat) :
    (dsts.flatMap fun dst => (List.range numTensors).map fun i => (⟨.isend, i, location, dst⟩ : P2POp)).filter
        (fun op => op.kind = .isend ∧ op.peer = b) =
      if b ∈ dsts then (List.range numTensors).map fun i => ⟨.isend, i, location, b⟩ else [] := by
  induction dsts with
  | nil => rfl
  | cons dst dsts ih =>
    obtain ⟨hnot, hnodup⟩ := List.nodup_cons.mp hdsts
    rw [List.flatMap_cons, List.filter_append, ih hnodup]
    by_cases hsame : dst = b
    · subst hsame
      rw [if_neg hnot, if_pos List.mem_cons_self, List.append_nil, List.filter_eq_self]
      intro op hop
      obtain ⟨i, -, rfl⟩ := List.mem_map.mp hop
      simp
    · have hnone : ((List.range numTensors).map fun i => (⟨.isend, i, location, dst⟩ : P2POp)).filter
          (fun op => op.kind = .isend ∧ op.peer = b) = [] := by
        rw [List.filter_eq_nil_iff]
        intro op hop
        obtain ⟨i, -, rfl⟩ := List.mem_map.mp hop
        simp [hsame]
      rw [hnone, List.nil_append]
      by_cases hmem : b ∈ dsts
      · rw [if_pos hmem, if_pos (List.mem_cons_of_mem _ hmem)]
      · rw [if_neg hmem, if_neg fun h => (List.mem_cons.mp h).elim (fun h => hsame h.symm) hmem]

/-- Of the receives of an expert, those from one source. -/
theorem filter_recvs (numTensors location a b : Nat) :
    ((List.range numTensors).map fun i => (⟨.irecv, i, location, a⟩ : P2POp)).filter
        (fun op => op.kind = .irecv ∧ op.peer = b) =
      if a = b then (List.range numTensors).map fun i => ⟨.irecv, i, location, b⟩ else [] := by
  by_cases hsame : a = b
  · rw [if_pos hsame, hsame, List.filter_eq_self]
    intro op hop
    obtain ⟨i, -, rfl⟩ := List.mem_map.mp hop
    simp
  · rw [if_neg hsame, List.filter_eq_nil_iff]
    intro op hop
    obtain ⟨i, -, rfl⟩ := List.mem_map.mp hop
    simp [hsame]

/-- Operations of one kind hold none of the other. -/
theorem filter_other {ops : List P2POp} {kind other : P2PKind} (hops : ∀ op ∈ ops, op.kind = kind)
    (hne : kind ≠ other) (b : Nat) : ops.filter (fun op => op.kind = other ∧ op.peer = b) = [] := by
  rw [List.filter_eq_nil_iff]
  intro op hop h
  obtain ⟨hkind, -⟩ := of_decide_eq_true h
  exact hne ((hops op hop).symm.trans hkind)

theorem sendInfoOf_kind {src : Nat} : ∀ op ∈ (sendInfoOf layouts rank src).2, op.kind = .isend := by
  intro op hop
  obtain ⟨dst, -, hop⟩ := List.mem_flatMap.mp hop
  obtain ⟨i, -, rfl⟩ := List.mem_map.mp hop
  rfl

open Classical in
/-- Every rank plans without an error. -/
theorem preparePlan_planned (hcovers : CoversNew layouts) (hrank : rank < layouts.worldSize)
    (tempBuffers : ExpertTensors W) :
    ∃ plan sendSlot recvSlot, layouts.preparePlan rank weights tempBuffers = .ok plan ∧
      Planned layouts rank weights tempBuffers plan sendSlot recvSlot := by
  have hfold := foldlM_handleRecv weights hcovers hrank (fun _ h => h) ⟨tempBuffers, [], []⟩
  obtain ⟨slots, hsends, hslots, hslotsNodup, -, hhosted⟩ := createIsendOps_ok hrank (fun _ h => h) []
    ((layouts.localRange rank).flatMap (recvInfosOf layouts rank))
  have hslotsInj : Set.InjOn layouts.old {src | src ∈ slots} := fun x hx y hy =>
    List.inj_on_of_nodup_map hslotsNodup hx hy
  have hrecvInj : Set.InjOn layouts.new {dst | ∃ a, ReceivesFrom layouts rank dst a} := by
    rintro x ⟨a, hx⟩ y ⟨a', hy⟩ hsame
    exact hx.slot_unique hcovers hrank hy hsame
  obtain ⟨sendSlot, hsendSlot⟩ := exists_inverse hslotsInj
  obtain ⟨recvSlot, hrecvSlot⟩ := exists_inverse hrecvInj
  have hslotOf : ∀ e, HostsOld layouts rank e → ∃ src ∈ slots, layouts.old src = e := by
    rintro _ ⟨x, hx, rfl⟩
    obtain ⟨src, hsrc, hsame⟩ := List.mem_map.mp (hhosted x hx List.not_mem_nil)
    exact ⟨src, hsrc, hsame⟩
  have hhosts : ∀ src ∈ slots, HostsOld layouts rank (layouts.old src) := fun src hsrc =>
    ⟨src, hslots src hsrc, rfl⟩
  have hrecvKeys : ∀ {dst a}, ReceivesFrom layouts rank dst a → ¬ HostsOld layouts rank (layouts.new dst) :=
    fun h => (h.holds hcovers hrank).2.1
  have hkeys : (((layouts.localRange rank).flatMap (recvInfosOf layouts rank) ++
      slots.map (sendInfoOf layouts rank)).map Prod.fst).Nodup := by
    rw [List.map_append, List.map_map]
    refine List.nodup_append'.mpr ⟨recvInfos_nodup hcovers hrank, hslotsNodup, fun e hrecv hsend => ?_⟩
    obtain ⟨info, hinfo, rfl⟩ := List.mem_map.mp hrecv
    obtain ⟨dst, a, hdst, rfl⟩ := mem_recvInfos.mp hinfo
    obtain ⟨src, hsrc, hsame⟩ := List.mem_map.mp hsend
    exact hrecvKeys hdst ⟨src, hslots src hsrc, hsame⟩
  refine ⟨⟨((layouts.localRange rank).flatMap (tempCopiesOf layouts rank)).foldl (fun buffers copy =>
      layouts.copyRows buffers copy.1 weights copy.2) tempBuffers,
    (layouts.localRange rank).flatMap (copiesOf layouts rank),
    (layouts.localRange rank).flatMap (recvInfosOf layouts rank) ++ slots.map (sendInfoOf layouts rank)⟩,
    sendSlot, recvSlot, ?_, rfl, rfl, fun e he => ?_, fun dst a h => hrecvSlot dst ⟨a, h⟩,
    fun op hop => ?_, fun b => ?_, fun a => ?_⟩
  · rw [ExpertLayouts.preparePlan, hfold]
    simp only [bind, Except.bind, List.nil_append, hsends, pure, Except.pure]
  · obtain ⟨src, hsrc, rfl⟩ := hslotOf e he
    rw [hsendSlot src hsrc]
    exact ⟨hslots src hsrc, rfl⟩
  · obtain ⟨info, hinfo, hop⟩ := List.mem_flatMap.mp hop
    obtain ⟨posted, hposted, rfl⟩ := List.mem_map.mp hop
    rcases List.mem_append.mp ((List.mergeSort_perm _ _).mem_iff.mp hinfo) with hinfo | hinfo
    · obtain ⟨dst, a, hdst, rfl⟩ := mem_recvInfos.mp hinfo
      obtain ⟨i, -, rfl⟩ := List.mem_map.mp hposted
      exact (hdst.source hcovers hrank).1
    · obtain ⟨src, hsrc, rfl⟩ := List.mem_map.mp hinfo
      obtain ⟨dst, hdst, hposted⟩ := List.mem_flatMap.mp hposted
      obtain ⟨i, -, rfl⟩ := List.mem_map.mp hposted
      have hneed := (((allDstRanks_dstsOf hrank (hhosts src hsrc)).2.2 dst).mp hdst).1
      exact (mem_needCommDstRanks.mp hneed).1
  · have hfilter : ∀ info ∈ (layouts.localRange rank).flatMap (recvInfosOf layouts rank) ++
        slots.map (sendInfoOf layouts rank), info.2.filter (fun op => op.kind = .isend ∧ op.peer = b) =
          if HostsOld layouts rank info.1 ∧ b ∈ dstsOf layouts rank info.1 then
            (List.range layouts.numTensors).map fun i =>
              ⟨.isend, i, sendSlot info.1 % layouts.numLocalPhysicalExperts, b⟩
          else [] := by
      intro info hinfo
      rcases List.mem_append.mp hinfo with hinfo | hinfo
      · obtain ⟨dst, a, hdst, rfl⟩ := mem_recvInfos.mp hinfo
        rw [if_neg fun h => hrecvKeys hdst h.1]
        refine filter_other (fun op hop => ?_) (by decide : P2PKind.irecv ≠ .isend) b
        obtain ⟨i, -, rfl⟩ := List.mem_map.mp hop
        rfl
      · obtain ⟨src, hsrc, rfl⟩ := List.mem_map.mp hinfo
        have hsends := filter_sends (allDstRanks_dstsOf hrank (hhosts src hsrc)).2.1 layouts.numTensors
          (src % layouts.numLocalPhysicalExperts) b
        have hslot : sendSlot (sendInfoOf layouts rank src).1 = src := hsendSlot src hsrc
        rw [hslot, sendInfoOf, hsends]
        by_cases hb : b ∈ dstsOf layouts rank (layouts.old src)
        · rw [if_pos hb, if_pos ⟨hhosts src hsrc, hb⟩]
        · rw [if_neg hb, if_neg fun h => hb h.2]
    obtain ⟨keys, hsorted, hmem, hops⟩ := opsWith_sortedOps .isend b
      (fun e => HostsOld layouts rank e ∧ b ∈ dstsOf layouts rank e)
      (fun e i => ⟨.isend, i, sendSlot e % layouts.numLocalPhysicalExperts, b⟩) hkeys hfilter
    refine ⟨keys, hsorted, fun e => (hmem e).trans ⟨fun h => h.2, fun h => ⟨?_, h⟩⟩, hops⟩
    obtain ⟨src, hsrc, rfl⟩ := hslotOf e h.1
    rw [List.map_append, List.map_map]
    exact List.mem_append_right _ (List.mem_map_of_mem hsrc)
  · have hfilter : ∀ info ∈ (layouts.localRange rank).flatMap (recvInfosOf layouts rank) ++
        slots.map (sendInfoOf layouts rank), info.2.filter (fun op => op.kind = .irecv ∧ op.peer = a) =
          if ∃ dst, ReceivesFrom layouts rank dst a ∧ layouts.new dst = info.1 then
            (List.range layouts.numTensors).map fun i =>
              ⟨.irecv, i, recvSlot info.1 % layouts.numLocalPhysicalExperts, a⟩
          else [] := by
      intro info hinfo
      rcases List.mem_append.mp hinfo with hinfo | hinfo
      · obtain ⟨dst, source, hdst, rfl⟩ := mem_recvInfos.mp hinfo
        have hslot : recvSlot (layouts.new dst) = dst := hrecvSlot dst ⟨source, hdst⟩
        simp only
        rw [filter_recvs, hslot]
        by_cases hsame : source = a
        · subst hsame
          rw [if_pos rfl, if_pos ⟨dst, hdst, rfl⟩]
        · rw [if_neg hsame, if_neg]
          rintro ⟨dst', hdst', hnew⟩
          obtain rfl := hdst.slot_unique hcovers hrank hdst' hnew.symm
          exact hsame (RecvCase.fromRank.inj (Except.ok.inj (hdst.2.symm.trans hdst'.2)))
      · obtain ⟨src, hsrc, rfl⟩ := List.mem_map.mp hinfo
        rw [filter_other sendInfoOf_kind (by decide : P2PKind.isend ≠ .irecv), if_neg]
        rintro ⟨dst, hdst, hnew⟩
        exact hrecvKeys hdst (hnew ▸ hhosts src hsrc)
    obtain ⟨keys, hsorted, hmem, hops⟩ := opsWith_sortedOps .irecv a
      (fun e => ∃ dst, ReceivesFrom layouts rank dst a ∧ layouts.new dst = e)
      (fun e i => ⟨.irecv, i, recvSlot e % layouts.numLocalPhysicalExperts, a⟩) hkeys hfilter
    refine ⟨keys, hsorted, fun e => (hmem e).trans ⟨fun h => h.2, fun h => ⟨?_, h⟩⟩, hops⟩
    obtain ⟨dst, hdst, rfl⟩ := h
    rw [List.map_append]
    exact List.mem_append_left _ (List.mem_map_of_mem (mem_recvInfos.mpr ⟨dst, a, hdst, rfl⟩))

end Plan

/-! ## Copies -/

section Copies

variable {W : Type} {source buffers : ExpertTensors W} {copies : List (Nat × Nat)} {i location : Nat}

theorem foldl_copyRows_of_not_mem (h : ∀ copy ∈ copies, copy.1 ≠ location) :
    copies.foldl (fun buffers copy => layouts.copyRows buffers copy.1 source copy.2) buffers i location =
      buffers i location :=
  foldl_overwrite_of_not_hit (fun (copy : Nat × Nat) i location => i < layouts.numTensors ∧ location = copy.1)
    (fun (copy : Nat × Nat) i _ => source i copy.2) buffers fun copy hcopy hhit => h copy hcopy hhit.2.symm

/-- A location that is always copied from one place holds its row. -/
theorem foldl_copyRows_of_mem {origin : Nat} (hi : i < layouts.numTensors) (hmem : (location, origin) ∈ copies)
    (hsame : ∀ copy ∈ copies, copy.1 = location → copy.2 = origin) :
    copies.foldl (fun buffers copy => layouts.copyRows buffers copy.1 source copy.2) buffers i location =
      source i origin :=
  foldl_overwrite_of_hit (fun (copy : Nat × Nat) i location => i < layouts.numTensors ∧ location = copy.1)
    (fun (copy : Nat × Nat) i _ => source i copy.2) buffers ⟨_, hmem, hi, rfl⟩
    fun copy hcopy hhit => congrArg (source i) (hsame copy hcopy hhit.2.symm)

theorem executeBuffer2weightCopies_ok (tempBuffers weights : ExpertTensors W) {infos : List (Nat × Nat)}
    (h : ∀ info ∈ infos, info.1 ∈ layouts.localRange rank ∧ info.2 ∈ layouts.localRange rank) :
    layouts.executeBuffer2weightCopies rank tempBuffers infos weights =
      .ok ((infos.map fun info => (info.2 % layouts.numLocalPhysicalExperts,
        info.1 % layouts.numLocalPhysicalExperts)).foldl
          (fun buffers copy => layouts.copyRows buffers copy.1 tempBuffers copy.2) weights) := by
  induction infos generalizing weights with
  | nil => rfl
  | cons info infos ih =>
    obtain ⟨hsrc, hdst⟩ := h info List.mem_cons_self
    simp only [ExpertLayouts.executeBuffer2weightCopies, localExpertLocation_ok hsrc,
      localExpertLocation_ok hdst, bind, Except.bind]
    exact ih _ fun other hother => h other (List.mem_cons_of_mem _ hother)

end Copies

/-! ## The batch -/

section Batch

variable {W : Type} {weights tempBuffers : Nat → ExpertTensors W} {plans : List (RankPlan W)}
  {sendSlot recvSlot : Nat → Int → Nat}

/-- The plans of all ranks. -/
def AllPlanned (layouts : ExpertLayouts) (weights tempBuffers : Nat → ExpertTensors W)
    (plans : List (RankPlan W)) (sendSlot recvSlot : Nat → Int → Nat) : Prop :=
  plans.length = layouts.worldSize ∧ ∀ rank (h : rank < plans.length),
    Planned layouts rank (weights rank) (tempBuffers rank) plans[rank] (sendSlot rank) (recvSlot rank)

theorem preparePlans_planned (hcovers : CoversNew layouts) (weights tempBuffers : Nat → ExpertTensors W) :
    ∃ plans sendSlot recvSlot, layouts.preparePlans weights tempBuffers = .ok plans ∧
      AllPlanned layouts weights tempBuffers plans sendSlot recvSlot := by
  have hall : ∀ rank ∈ List.range layouts.worldSize, ∃ plan,
      layouts.preparePlan rank (weights rank) (tempBuffers rank) = .ok plan := by
    intro rank hrank
    obtain ⟨plan, -, -, hplan, -⟩ := preparePlan_planned (weights rank) hcovers (List.mem_range.mp hrank)
      (tempBuffers rank)
    exact ⟨plan, hplan⟩
  obtain ⟨plans, hplans⟩ := mapM_exists hall
  obtain ⟨hlen, hget⟩ := mapM_ok hplans
  rw [List.length_range] at hlen
  have hplanned : ∀ rank, ∃ send recv, ∀ (h : rank < plans.length),
      Planned layouts rank (weights rank) (tempBuffers rank) plans[rank] send recv := by
    intro rank
    by_cases h : rank < plans.length
    · have hrank : rank < layouts.worldSize := hlen ▸ h
      obtain ⟨plan, send, recv, hplan, hspec⟩ := preparePlan_planned (weights rank) hcovers hrank
        (tempBuffers rank)
      have hthis := hget rank (by rwa [List.length_range]) h
      rw [List.getElem_range] at hthis
      have hsame := Except.ok.inj (hthis.symm.trans hplan)
      exact ⟨send, recv, fun _ => hsame ▸ hspec⟩
    · exact ⟨fun _ => 0, fun _ => 0, fun h' => absurd h' h⟩
  choose sendSlot recvSlot hspec using hplanned
  exact ⟨plans, sendSlot, recvSlot, hplans, hlen, hspec⟩

theorem postedOps_eq {rank : Nat} (h : rank < plans.length) :
    postedOps plans rank = sortedOps plans[rank].p2pOpInfos := by
  rw [postedOps, List.getElem?_eq_getElem h, Option.map_some, Option.getD_some]

/-- Between two ranks the sends and the receives run through the same experts. -/
theorem posted_pairs (hcovers : CoversNew layouts)
    (h : AllPlanned layouts weights tempBuffers plans sendSlot recvSlot) {a b : Nat}
    (ha : a < layouts.worldSize) (hb : b < layouts.worldSize) :
    ∃ keys : List Int, (∀ e, e ∈ keys ↔ ∃ dst, ReceivesFrom layouts b dst a ∧ layouts.new dst = e) ∧
      opsWith .isend b (postedOps plans a) = (keys.flatMap fun e =>
        (List.range layouts.numTensors).map fun i =>
          (e, ⟨.isend, i, sendSlot a e % layouts.numLocalPhysicalExperts, b⟩)) ∧
      opsWith .irecv a (postedOps plans b) = keys.flatMap fun e =>
        (List.range layouts.numTensors).map fun i =>
          (e, ⟨.irecv, i, recvSlot b e % layouts.numLocalPhysicalExperts, a⟩) := by
  obtain ⟨sendKeys, hsendSorted, hsendMem, hsends⟩ := (h.2 a (h.1 ▸ ha)).sends b
  obtain ⟨recvKeys, hrecvSorted, hrecvMem, hrecvs⟩ := (h.2 b (h.1 ▸ hb)).recvs a
  have hsame : sendKeys = recvKeys := hsendSorted.eq_of_mem_iff hrecvSorted fun e => by
    rw [hsendMem, hrecvMem, received_iff_sent hcovers ha hb]
  refine ⟨recvKeys, hrecvMem, ?_, ?_⟩
  · rw [postedOps_eq (h.1 ▸ ha), hsends, hsame]
  · rw [postedOps_eq (h.1 ▸ hb), hrecvs]

/-- The batch ends on every rank. -/
theorem batchEnds (hcovers : CoversNew layouts)
    (h : AllPlanned layouts weights tempBuffers plans sendSlot recvSlot) :
    BatchEnds layouts.worldSize (postedOps plans) := by
  intro a ha
  refine ⟨fun op hop => ?_, fun b hb => ?_⟩
  · rw [postedOps_eq (h.1 ▸ ha)] at hop
    exact (h.2 a (h.1 ▸ ha)).peers op hop
  · obtain ⟨keys, -, hsends, hrecvs⟩ := posted_pairs hcovers h ha hb
    rw [hsends, hrecvs, List.length_flatMap, List.length_flatMap]
    simp only [List.length_map]

theorem zipWith_flatMap {α β γ δ : Type} (f : α → β → γ) (keys : List δ) (xs : δ → List α) (ys : δ → List β)
    (hlen : ∀ key, (xs key).length = (ys key).length) :
    List.zipWith f (keys.flatMap xs) (keys.flatMap ys) = keys.flatMap fun key => List.zipWith f (xs key) (ys key) := by
  induction keys with
  | nil => rfl
  | cons key keys ih =>
    rw [List.flatMap_cons, List.flatMap_cons, List.flatMap_cons, List.zipWith_append (hlen key), ih]

/-- What a rank receives from another. -/
theorem mem_receivedFrom (hcovers : CoversNew layouts)
    (h : AllPlanned layouts weights tempBuffers plans sendSlot recvSlot) {a b : Nat}
    (ha : a < layouts.worldSize) (hb : b < layouts.worldSize) {recv : P2POp × W} :
    recv ∈ receivedFrom weights (postedOps plans) b a ↔
      ∃ dst i, ReceivesFrom layouts b dst a ∧ i < layouts.numTensors ∧
        recv = (⟨.irecv, i, dst % layouts.numLocalPhysicalExperts, a⟩,
          weights a i (sendSlot a (layouts.new dst) % layouts.numLocalPhysicalExperts)) := by
  obtain ⟨keys, hmem, hsends, hrecvs⟩ := posted_pairs hcovers h ha hb
  have hslots := (h.2 b (h.1 ▸ hb)).recvSlots
  rw [receivedFrom, hsends, hrecvs, zipWith_flatMap _ _ _ _ fun e => by simp, List.mem_flatMap]
  simp only [List.zipWith_map, List.zipWith_self, List.mem_map, List.mem_range]
  constructor
  · rintro ⟨e, he, i, hi, rfl⟩
    obtain ⟨dst, hdst, rfl⟩ := (hmem e).mp he
    exact ⟨dst, i, hdst, hi, by rw [hslots dst a hdst]⟩
  · rintro ⟨dst, i, hdst, hi, rfl⟩
    exact ⟨layouts.new dst, (hmem _).mpr ⟨dst, hdst, rfl⟩, i, hi, by rw [hslots dst a hdst]⟩

theorem mem_allReceived (hcovers : CoversNew layouts)
    (h : AllPlanned layouts weights tempBuffers plans sendSlot recvSlot) {b : Nat} (hb : b < layouts.worldSize)
    {recv : P2POp × W} :
    recv ∈ (List.range layouts.worldSize).flatMap (receivedFrom weights (postedOps plans) b) ↔
      ∃ a dst i, ReceivesFrom layouts b dst a ∧ i < layouts.numTensors ∧
        recv = (⟨.irecv, i, dst % layouts.numLocalPhysicalExperts, a⟩,
          weights a i (sendSlot a (layouts.new dst) % layouts.numLocalPhysicalExperts)) := by
  rw [List.mem_flatMap]
  constructor
  · rintro ⟨a, ha, hrecv⟩
    obtain ⟨dst, i, hspec⟩ := (mem_receivedFrom hcovers h (List.mem_range.mp ha) hb).mp hrecv
    exact ⟨a, dst, i, hspec⟩
  · rintro ⟨a, dst, i, hdst, hspec⟩
    have ha := (hdst.source hcovers hb).1
    exact ⟨a, List.mem_range.mpr ha, (mem_receivedFrom hcovers h ha hb).mpr ⟨dst, i, hdst, hspec⟩⟩

/-- A received slot holds the row its source had in its own slot of the expert. -/
theorem afterBatch_received (hcovers : CoversNew layouts)
    (h : AllPlanned layouts weights tempBuffers plans sendSlot recvSlot) {a b dst i : Nat}
    (hb : b < layouts.worldSize) (hdst : ReceivesFrom layouts b dst a) (hi : i < layouts.numTensors)
    (buffers : ExpertTensors W) :
    afterBatch layouts.worldSize weights (postedOps plans) b buffers i
        (dst % layouts.numLocalPhysicalExperts) =
      weights a i (sendSlot a (layouts.new dst) % layouts.numLocalPhysicalExperts) := by
  refine foldl_overwrite_of_hit
    (fun (recv : P2POp × W) i location => i = recv.1.tensorIndex ∧ location = recv.1.localLocation)
    (fun recv _ _ => recv.2) buffers ⟨_, (mem_allReceived hcovers h hb).mpr ⟨a, dst, i, hdst, hi, rfl⟩, rfl, rfl⟩ ?_
  intro recv hrecv hhit
  obtain ⟨a', dst', i', hdst', -, rfl⟩ := (mem_allReceived hcovers h hb).mp hrecv
  obtain ⟨rfl, hlocation⟩ := hhit
  obtain rfl := localRange_mod_inj hdst.1 hdst'.1 hlocation
  obtain rfl := RecvCase.fromRank.inj (Except.ok.inj (hdst.2.symm.trans hdst'.2))
  rfl

/-- The batch leaves the other slots of the temporary buffers. -/
theorem afterBatch_other (hcovers : CoversNew layouts)
    (h : AllPlanned layouts weights tempBuffers plans sendSlot recvSlot) {b dst : Nat}
    (hb : b < layouts.worldSize) (hlocal : dst ∈ layouts.localRange b)
    (hdst : ∀ a, ¬ ReceivesFrom layouts b dst a) (i : Nat) (buffers : ExpertTensors W) :
    afterBatch layouts.worldSize weights (postedOps plans) b buffers i
        (dst % layouts.numLocalPhysicalExperts) =
      buffers i (dst % layouts.numLocalPhysicalExperts) := by
  refine foldl_overwrite_of_not_hit
    (fun (recv : P2POp × W) i location => i = recv.1.tensorIndex ∧ location = recv.1.localLocation)
    (fun recv _ _ => recv.2) buffers fun recv hrecv hhit => ?_
  obtain ⟨a, dst', i', hdst', -, rfl⟩ := (mem_allReceived hcovers h hb).mp hrecv
  obtain rfl := localRange_mod_inj hlocal hdst'.1 hhit.2
  exact hdst a hdst'

/-! ## The weights afterwards -/

/-- The rows of a slot come from a slot of the old layout with the slot's new expert. -/
def Migrated (layouts : ExpertLayouts) (weights : Nat → ExpertTensors W) (rows : Nat → W) (dst : Nat) : Prop :=
  ∃ origin < layouts.worldSize * layouts.numLocalPhysicalExperts, layouts.old origin = layouts.new dst ∧
    ∀ i < layouts.numTensors, rows i = weights (origin / layouts.numLocalPhysicalExperts) i
      (origin % layouts.numLocalPhysicalExperts)

theorem migrated_of_local {weights : Nat → ExpertTensors W} {rows : Nat → W} {rank dst origin : Nat}
    (hrank : rank < layouts.worldSize) (horigin : origin ∈ layouts.localRange rank)
    (hold : layouts.old origin = layouts.new dst)
    (hrows : ∀ i < layouts.numTensors, rows i = weights rank i (origin % layouts.numLocalPhysicalExperts)) :
    Migrated layouts weights rows dst := by
  obtain ⟨hpos, rfl⟩ := mem_localRange.mp horigin
  exact ⟨origin, (Nat.div_lt_iff_lt_mul hpos).mp hrank, hold, hrows⟩

/-- The rows of a received slot in the temporary buffers come from its source. -/
theorem migrated_received (hcovers : CoversNew layouts)
    (h : AllPlanned layouts weights tempBuffers plans sendSlot recvSlot) {a b src dst : Nat}
    (hb : b < layouts.worldSize) (hsrc : ReceivesFrom layouts b src a) (hsame : layouts.new src = layouts.new dst)
    (buffers : ExpertTensors W) :
    Migrated layouts weights (fun i => afterBatch layouts.worldSize weights (postedOps plans) b buffers i
      (src % layouts.numLocalPhysicalExperts)) dst := by
  obtain ⟨ha, hhosts⟩ := hsrc.source hcovers hb
  obtain ⟨hslot, hold⟩ := (h.2 a (h.1 ▸ ha)).sendSlots _ hhosts
  exact migrated_of_local ha hslot (hold.trans hsame) fun i hi => afterBatch_received hcovers h hb hsrc hi buffers

theorem mem_copiesOf {rank dst : Nat} {copy : Nat × Nat} (h : copy ∈ copiesOf layouts rank dst) :
    copy.2 = dst := by
  unfold copiesOf at h
  split at h
  · rw [List.mem_singleton.mp h]
  · rw [List.mem_singleton.mp h]
  · rw [List.mem_singleton.mp h]
  · exact absurd h List.not_mem_nil

/-- The copies into the weights of a rank, by local location. -/
def weightCopies (layouts : ExpertLayouts) (rank : Nat) : List (Nat × Nat) :=
  ((layouts.localRange rank).flatMap (copiesOf layouts rank)).map fun info =>
    (info.2 % layouts.numLocalPhysicalExperts, info.1 % layouts.numLocalPhysicalExperts)

/-- A slot's location is only copied to as the slot asks. -/
theorem mem_weightCopies {rank dst : Nat} (hdst : dst ∈ layouts.localRange rank) {copy : Nat × Nat}
    (hcopy : copy ∈ weightCopies layouts rank) (hlocation : copy.1 = dst % layouts.numLocalPhysicalExperts) :
    ∃ info ∈ copiesOf layouts rank dst, copy.2 = info.1 % layouts.numLocalPhysicalExperts := by
  obtain ⟨info, hinfo, rfl⟩ := List.mem_map.mp hcopy
  obtain ⟨other, hother, hinfo⟩ := List.mem_flatMap.mp hinfo
  simp only [mem_copiesOf hinfo] at hlocation
  obtain rfl := localRange_mod_inj hother hdst hlocation
  exact ⟨info, hinfo, rfl⟩

/-- A slot that asks for one copy gets it. -/
theorem weights_of_copy {rank src dst i : Nat} (hdst : dst ∈ layouts.localRange rank)
    (hcopies : copiesOf layouts rank dst = [(src, dst)]) (hi : i < layouts.numTensors)
    (source rows : ExpertTensors W) :
    (weightCopies layouts rank).foldl (fun buffers copy => layouts.copyRows buffers copy.1 source copy.2) rows i
      (dst % layouts.numLocalPhysicalExperts) = source i (src % layouts.numLocalPhysicalExperts) := by
  refine foldl_copyRows_of_mem hi ?_ fun copy hcopy hlocation => ?_
  · refine List.mem_map.mpr ⟨(src, dst), List.mem_flatMap.mpr ⟨dst, hdst, ?_⟩, rfl⟩
    rw [hcopies]
    exact List.mem_singleton_self _
  · obtain ⟨info, hinfo, hsrc⟩ := mem_weightCopies hdst hcopy hlocation
    rw [hcopies, List.mem_singleton] at hinfo
    rw [hsrc, hinfo]

/-- The copies into the temporary buffers fill the slots of the case same-gpu. -/
theorem temp_of_sameGpu {rank src dst i : Nat} (hdst : dst ∈ layouts.localRange rank)
    (hcase : layouts.recvCase rank dst = .ok (.sameGpu src)) (hi : i < layouts.numTensors)
    (source rows : ExpertTensors W) :
    ((layouts.localRange rank).flatMap (tempCopiesOf layouts rank)).foldl (fun buffers copy =>
      layouts.copyRows buffers copy.1 source copy.2) rows i (dst % layouts.numLocalPhysicalExperts) =
        source i (src % layouts.numLocalPhysicalExperts) := by
  refine foldl_copyRows_of_mem hi (List.mem_flatMap.mpr ⟨dst, hdst, ?_⟩) fun copy hcopy hlocation => ?_
  · rw [tempCopiesOf, hcase]
    exact List.mem_singleton_self _
  · obtain ⟨other, hother, hcopy⟩ := List.mem_flatMap.mp hcopy
    unfold tempCopiesOf at hcopy
    split at hcopy
    next src' hcase' =>
      rw [List.mem_singleton.mp hcopy] at hlocation ⊢
      obtain rfl := localRange_mod_inj hother hdst hlocation
      rw [RecvCase.sameGpu.inj (Except.ok.inj (hcase.symm.trans hcase'))]
    next => exact absurd hcopy List.not_mem_nil

/-- Every slot of a rank is migrated. -/
theorem migrated_slot (hcovers : CoversNew layouts)
    (h : AllPlanned layouts weights tempBuffers plans sendSlot recvSlot) {rank dst : Nat}
    (hrank : rank < plans.length) (hdst : dst ∈ layouts.localRange rank) :
    Migrated layouts weights (fun i => (weightCopies layouts rank).foldl (fun buffers copy =>
      layouts.copyRows buffers copy.1 (afterBatch layouts.worldSize weights (postedOps plans) rank
        plans[rank].tempBuffers) copy.2) (weights rank) i (dst % layouts.numLocalPhysicalExperts)) dst := by
  have hworld : rank < layouts.worldSize := h.1 ▸ hrank
  obtain ⟨c, hc, hholds⟩ := recvCase_ok hcovers hworld hdst
  cases c with
  | unchanged =>
    refine migrated_of_local hworld hdst hholds fun i _ => ?_
    refine foldl_copyRows_of_not_mem fun copy hcopy hlocation => ?_
    obtain ⟨info, hinfo, -⟩ := mem_weightCopies hdst hcopy hlocation
    rw [copiesOf, hc] at hinfo
    exact absurd hinfo List.not_mem_nil
  | sameGpu src =>
    refine migrated_of_local hworld hholds.1 hholds.2 fun i hi => ?_
    rw [weights_of_copy hdst (by rw [copiesOf, hc]) hi, afterBatch_other hcovers h hworld hdst ?_,
      (h.2 rank hrank).temp, temp_of_sameGpu hdst hc hi]
    intro a ha
    cases hc.symm.trans ha.2
  | freeRider src =>
    obtain ⟨hlocal, hsame, hfirst, hold⟩ := hholds
    obtain ⟨a, -, hchosen⟩ := chosenSrcRank_of_new hcovers hworld hlocal hold
    have hrecv : ReceivesFrom layouts rank src a := ⟨hlocal, recvCase_fromRank hlocal ⟨hfirst, hold, hchosen⟩⟩
    obtain ⟨origin, horigin, hexpert, hrows⟩ := migrated_received hcovers h hworld hrecv hsame
      plans[rank].tempBuffers
    refine ⟨origin, horigin, hexpert, fun i hi => ?_⟩
    exact (weights_of_copy hdst (by rw [copiesOf, hc]) hi _ _).trans (hrows i hi)
  | fromRank a =>
    obtain ⟨origin, horigin, hexpert, hrows⟩ := migrated_received hcovers h hworld ⟨hdst, hc⟩ rfl
      plans[rank].tempBuffers
    refine ⟨origin, horigin, hexpert, fun i hi => ?_⟩
    exact (weights_of_copy hdst (by rw [copiesOf, hc]) hi _ _).trans (hrows i hi)

theorem copies_local (hcovers : CoversNew layouts) {rank : Nat} (hrank : rank < layouts.worldSize) :
    ∀ info ∈ (layouts.localRange rank).flatMap (copiesOf layouts rank),
      info.1 ∈ layouts.localRange rank ∧ info.2 ∈ layouts.localRange rank := by
  intro info hinfo
  obtain ⟨dst, hdst, hinfo⟩ := List.mem_flatMap.mp hinfo
  obtain ⟨c, hc, hholds⟩ := recvCase_ok hcovers hrank hdst
  rw [copiesOf, hc] at hinfo
  cases c with
  | unchanged => exact absurd hinfo List.not_mem_nil
  | sameGpu src =>
    rw [List.mem_singleton.mp hinfo]
    exact ⟨hdst, hdst⟩
  | freeRider src =>
    rw [List.mem_singleton.mp hinfo]
    exact ⟨hholds.1, hdst⟩
  | fromRank a =>
    rw [List.mem_singleton.mp hinfo]
    exact ⟨hdst, hdst⟩

/-- The expert and the tensor of an operation. -/
def opLabel (op : Int × P2POp) : Int × Nat := (op.1, op.2.tensorIndex)

theorem posted_labels (hcovers : CoversNew layouts)
    (h : AllPlanned layouts weights tempBuffers plans sendSlot recvSlot) {a b : Nat}
    (ha : a < layouts.worldSize) (hb : b < layouts.worldSize) :
    (opsWith .isend b (postedOps plans a)).map opLabel = (opsWith .irecv a (postedOps plans b)).map opLabel := by
  obtain ⟨keys, -, hsends, hrecvs⟩ := posted_pairs hcovers h ha hb
  rw [hsends, hrecvs, List.map_flatMap, List.map_flatMap]
  simp only [List.map_map]
  rfl

/-- The update ends without an error, and every slot is migrated. -/
theorem migrated_layer (hcovers : CoversNew layouts) (hplans : layouts.preparePlans weights tempBuffers = .ok plans)
    (hall : AllPlanned layouts weights tempBuffers plans sendSlot recvSlot) :
    ∃ after, layouts.updateExpertWeightsSingleLayer weights tempBuffers = .ok (some after) ∧
      after.length = layouts.worldSize ∧
      ∀ rank (h : rank < after.length), ∀ slot < layouts.numLocalPhysicalExperts,
        Migrated layouts weights (fun i => after[rank] i slot)
          (rank * layouts.numLocalPhysicalExperts + slot) := by
  have hcopied : ∀ rank (h : rank < plans.length), layouts.executeBuffer2weightCopies rank
      (afterBatch layouts.worldSize weights (postedOps plans) rank plans[rank].tempBuffers)
      plans[rank].buffer2weightCopyInfos (weights rank) = .ok ((weightCopies layouts rank).foldl
        (fun buffers copy => layouts.copyRows buffers copy.1 (afterBatch layouts.worldSize weights
          (postedOps plans) rank plans[rank].tempBuffers) copy.2) (weights rank)) := by
    intro rank h
    rw [(hall.2 rank h).copies, executeBuffer2weightCopies_ok _ _ (copies_local hcovers (hall.1 ▸ h))]
    rfl
  have hsteps : ∀ step ∈ plans.zipIdx, ∃ rows, layouts.executeBuffer2weightCopies step.2
      (afterBatch layouts.worldSize weights (postedOps plans) step.2 step.1.tempBuffers)
      step.1.buffer2weightCopyInfos (weights step.2) = .ok rows := by
    rintro ⟨plan, rank⟩ hstep
    obtain ⟨hrank, hplan⟩ := List.mem_zipIdx' hstep
    exact ⟨_, by rw [hplan]; exact hcopied rank hrank⟩
  obtain ⟨after, hafter⟩ := mapM_exists hsteps
  obtain ⟨hlen, hget⟩ := mapM_ok hafter
  rw [List.length_zipIdx] at hlen
  refine ⟨after, ?_, hlen.trans hall.1, fun rank h slot hslot => ?_⟩
  · simp only [ExpertLayouts.updateExpertWeightsSingleLayer, hplans, bind, Except.bind]
    rw [if_pos (batchEnds hcovers hall)]
    simp only [hafter, pure, Except.pure]
  · have hrank : rank < plans.length := hlen ▸ h
    have hstep := hget rank (by rwa [List.length_zipIdx]) h
    simp only [List.getElem_zipIdx, Nat.zero_add] at hstep
    rw [Except.ok.inj (hstep.symm.trans (hcopied rank hrank))]
    have hdst : rank * layouts.numLocalPhysicalExperts + slot ∈ layouts.localRange rank := by
      rw [ExpertLayouts.localRange, List.mem_range'_1]
      omega
    have hmigrated := migrated_slot hcovers hall hrank hdst
    rwa [Nat.add_comm, Nat.add_mul_mod_self_right, Nat.mod_eq_of_lt hslot, Nat.add_comm] at hmigrated

/-- Sends and receives match between any two ranks, no rank raises or waits for ever, and every slot holds
what the old layout stored for its new expert. -/
theorem expert_weights_migrated (hcovers : CoversNew layouts) (weights tempBuffers : Nat → ExpertTensors W) :
    ∃ plans after, layouts.preparePlans weights tempBuffers = .ok plans ∧
      (∀ a < layouts.worldSize, ∀ b < layouts.worldSize,
        (opsWith .isend b (postedOps plans a)).map opLabel =
          (opsWith .irecv a (postedOps plans b)).map opLabel) ∧
      layouts.updateExpertWeightsSingleLayer weights tempBuffers = .ok (some after) ∧
      after.length = layouts.worldSize ∧
      ∀ rank (h : rank < after.length), ∀ slot < layouts.numLocalPhysicalExperts,
        Migrated layouts weights (fun i => after[rank] i slot)
          (rank * layouts.numLocalPhysicalExperts + slot) := by
  obtain ⟨plans, sendSlot, recvSlot, hplans, hall⟩ := preparePlans_planned hcovers weights tempBuffers
  obtain ⟨after, hafter, hlen, hslots⟩ := migrated_layer hcovers hplans hall
  exact ⟨plans, after, hplans, fun a ha b hb => posted_labels hcovers hall ha hb, hafter, hlen, hslots⟩

/-- Two ranks of two slots: expert 2 moves to rank 0 and expert 0 to rank 1, which had neither. -/
theorem expert_weights_migrated_swapped :
    let layouts : ExpertLayouts := ⟨2, 1, 2, 3, [0, 1, 2, 1], [1, 2, 0, 0], rfl, rfl, by decide⟩
    CoversNew layouts ∧ ∀ weights : Nat → ExpertTensors Nat, ∃ after,
      layouts.updateExpertWeightsSingleLayer weights weights = .ok (some after) ∧
        ∃ h : 1 < after.length, Migrated layouts weights (fun i => after[1] i 1) 3 := by
  intro layouts
  have hcovers : CoversNew layouts := by
    unfold CoversNew
    decide
  refine ⟨hcovers, fun weights => ?_⟩
  obtain ⟨_, after, _, _, hafter, hlen, hslots⟩ := expert_weights_migrated hcovers weights weights
  have hone : 1 < after.length := by
    rw [hlen]
    decide
  exact ⟨after, hafter, hone, hslots 1 hone 1 (by decide)⟩

end Batch

end QCFuse.Guarantees
