import Emu68.Ppc.RegisterRuns

/-!
Every call of the register cache keeps the invariant, so that in every run the host has the values
of the PowerPC registers, and an emitter finds its operands where it was told.
-/

set_option autoImplicit false
set_option relaxedAutoImplicit false

namespace Emu68.Ppc.RegisterCache

open A64 Lib

variable {f : Frame} {c : Context} {x armReg : Reg} {reg : Gpr} {rn : RegisterNode}

/-! ### Instructions of the emitters -/

theorem Tidy.compute (h : Tidy f) (hx : f.temps x = true) (value : BitVec 64) :
    Tidy (f.writeReg x value) := by
  have hlt := h.temp_lt hx
  have hother : ∀ y ≠ x, Function.update f.host.regs x value y = f.host.regs y :=
    fun y hy ↦ Function.update_of_ne hy _ _
  refine { h with
      fixed := fun reg hfixed hreg ↦ ?_
      value := fun rn hrn hreg ↦ ?_
      context := fun hctx ↦ ?_ }
  · refine Eq.trans ?_ (h.fixed reg hfixed hreg)
    exact congrArg _ (hother _ (fixed_ne_of_lt hfixed hlt))
  · refine Eq.trans ?_ (h.value rn hrn hreg)
    exact congrArg _ (hother _ ((h.temps x hx).2 rn hrn))
  · exact (hother _ (h.temps x hx).1).trans (h.context hctx)

theorem Tidy.write (h : Tidy f) (hx : f.handle reg = some x)
    (hwritable : f.Writable reg) (value : BitVec 32) :
    Tidy { f.writeReg x (value.setWidth 64) with
      ppc := Function.update f.ppc reg value
      pending := Function.update f.pending reg false } := by
  have hself : ((Function.update f.host.regs x (value.setWidth 64)) x).setWidth 32 = value := by
    rw [Function.update_self, BitVec.setWidth_setWidth_of_le _ (by decide), BitVec.setWidth_eq]
  have hother : ∀ y ≠ x, Function.update f.host.regs x (value.setWidth 64) y = f.host.regs y :=
    fun y hy ↦ Function.update_of_ne hy _ _
  have hppc : ∀ reg' ≠ reg, Function.update f.ppc reg value reg' = f.ppc reg' :=
    fun _ hne ↦ Function.update_of_ne hne _ _
  have hsettled : ∀ reg' ≠ reg, Function.update f.pending reg false reg' = f.pending reg' :=
    fun _ hne ↦ Function.update_of_ne hne _ _
  -- no other register is in the one that is written
  have hapart : ∀ rn ∈ f.ctx.gprLru, rn.regNum ≠ reg → rn.arm ≠ x := by
    intro rn hrn hne
    rcases h.handle reg x hx with ⟨hfixed, rfl⟩ | ⟨rn', hrn', rfl, rfl⟩
    · exact (fixed_ne_of_lt hfixed (h.arm_lt hrn)).symm
    · intro heq
      exact hne (congrArg _ (List.inj_on_of_nodup_map h.arms hrn (List.mem_of_mem_take hrn') heq))
  refine { h with
      fixed := fun reg' hfixed hreg ↦ ?_
      value := fun rn hrn hreg ↦ ?_
      lane := fun reg' lane hlane hreg hclean ↦ ?_
      pending := fun reg' hreg ↦ ?_
      context := fun hctx ↦ ?_ }
  · by_cases hne : reg' = reg
    · subst hne
      rcases h.handle reg' x hx with ⟨-, rfl⟩ | ⟨rn, hrn, rfl, -⟩
      · exact hself.trans (Function.update_self reg' value f.ppc).symm
      · exact absurd (h.dynamic rn (List.mem_of_mem_take hrn)) hfixed
    · refine Eq.trans ?_ ((h.fixed reg' hfixed ((hsettled _ hne).symm.trans hreg)).trans
        (hppc _ hne).symm)
      refine congrArg _ (hother _ ?_)
      rcases h.handle reg x hx with ⟨-, rfl⟩ | ⟨rn, hrn, -, rfl⟩
      · exact fun heq ↦ hne (intRegMapping_injective _ _ hfixed heq)
      · exact fixed_ne_of_lt hfixed (h.arm_lt (List.mem_of_mem_take hrn))
  · by_cases hne : rn.regNum = reg
    · have harm : rn.arm = x := by
        rw [← h.handle_eq hx, ← hne]
        exact (h.find hrn).symm
      refine Eq.trans ?_ ((congrArg _ hne).trans (Function.update_self reg value f.ppc)).symm
      show ((Function.update f.host.regs x _) rn.arm).setWidth 32 = value
      rw [harm, hself]
    · refine Eq.trans ?_ ((h.value rn hrn ((hsettled _ hne).symm.trans hreg)).trans
        (hppc _ hne).symm)
      exact congrArg _ (hother _ (hapart rn hrn hne))
  · by_cases hne : reg' = reg
    · subst hne
      rcases hwritable with hfixed | ⟨rn, hrn, hnum, hdirty⟩
      · exact absurd ((simdLane_isSome_iff reg').mp (hlane ▸ rfl)) hfixed
      · exact absurd (hdirty.symm.trans (hclean rn hrn hnum)) (by decide)
    · exact (h.lane reg' lane hlane ((hsettled _ hne).symm.trans hreg) hclean).trans
        (hppc _ hne).symm
  · by_cases hne : reg' = reg
    · exact Option.isSome_iff_exists.mpr ⟨x, hne ▸ hx⟩
    · exact h.pending reg' ((hsettled _ hne).symm.trans hreg)
  · refine (hother _ ?_).trans (h.context hctx)
    have hlt : f.ctx.regCtx < 12 := h.low _ ((h.pool _).mpr (.inr (.inl ⟨rfl, hctx⟩)))
    rcases h.handle reg x hx with ⟨hfixed, rfl⟩ | ⟨rn, hrn, -, rfl⟩
    · exact (fixed_ne_of_lt hfixed hlt).symm
    · exact (h.ctxApart rn (List.mem_of_mem_take hrn)).symm

theorem Tidy.free (h : Tidy f) (hx : f.temps x = true) :
    Tidy { f with
      ctx := f.ctx.freeARMRegister x
      temps := Function.update f.temps x false } := by
  have hlt := h.temp_lt hx
  have hctx : f.ctx.freeARMRegister x =
      { f.ctx with gprTmpPool := Function.update f.ctx.gprTmpPool x false } := by
    unfold Context.freeARMRegister
    rw [if_neg (Nat.not_lt.mpr (Nat.le_of_lt_succ hlt))]
  rw [hctx]
  refine { h with low := fun y hy ↦ ?_, pool := fun y ↦ ?_, temps := fun y hy ↦ ?_ }
  · by_cases hyx : y = x
    · exact hyx ▸ hlt
    · exact h.low y (of_update hyx hy)
  · by_cases hyx : y = x
    · rw [hyx]
      refine iff_of_false ?_ ?_
      · exact fun hpool ↦ Bool.false_ne_true ((Function.update_self ..).symm.trans hpool)
      · rintro (htemp | ⟨heq, -⟩ | ⟨rn, hrn, harm⟩)
        · exact Bool.false_ne_true ((Function.update_self ..).symm.trans htemp)
        · exact (h.temps x hx).1 heq
        · exact (h.temps x hx).2 rn hrn harm
    · have hpool := h.pool y
      rw [← Function.update_of_ne hyx false f.ctx.gprTmpPool,
        ← Function.update_of_ne hyx false f.temps] at hpool
      exact hpool
  · by_cases hyx : y = x
    · rw [hyx] at hy
      exact absurd ((Function.update_self ..).symm.trans hy) Bool.false_ne_true
    · exact h.temps y (of_update hyx hy)

/-! ### Operands -/

/-- The registers in use in another order, or stored when they were not going to be. -/
theorem Tidy.relist (h : Tidy f) {lru : List RegisterNode} {recent : ℕ}
    (hkeys : (lru.map RegisterNode.key).Perm (f.ctx.gprLru.map RegisterNode.key))
    (hdirty : ∀ rn ∈ f.ctx.gprLru, rn.dirty = true → ∀ rn' ∈ lru, rn'.key = rn.key →
      rn'.dirty = true)
    (htake : ∀ rn ∈ f.ctx.gprLru.take f.recent, ∃ rn' ∈ lru.take recent, rn'.key = rn.key) :
    Tidy { f with ctx := { f.ctx with gprLru := lru }, recent := recent } := by
  have hold : ∀ rn ∈ lru, ∃ rn' ∈ f.ctx.gprLru, rn'.key = rn.key := fun rn hrn ↦
    List.mem_map.mp (hkeys.mem_iff.mp (List.mem_map_of_mem hrn))
  have hnew : ∀ rn ∈ f.ctx.gprLru, ∃ rn' ∈ lru, rn'.key = rn.key := fun rn hrn ↦
    List.mem_map.mp (hkeys.mem_iff.mpr (List.mem_map_of_mem hrn))
  have hregs : (lru.map RegisterNode.regNum).Perm (f.ctx.gprLru.map RegisterNode.regNum) := by
    have := hkeys.map Prod.fst
    rwa [List.map_map, List.map_map] at this
  have harms : (lru.map RegisterNode.arm).Perm (f.ctx.gprLru.map RegisterNode.arm) := by
    have := hkeys.map Prod.snd
    rwa [List.map_map, List.map_map] at this
  have hparts : ∀ {rn rn' : RegisterNode}, rn'.key = rn.key →
      rn'.regNum = rn.regNum ∧ rn'.arm = rn.arm := fun hkey ↦ Prod.mk.inj hkey
  refine { h with
      pool := fun y ↦ (h.pool y).trans ?_
      temps := fun y hy ↦ ?_
      ctxApart := fun rn hrn ↦ ?_
      regs := hregs.nodup_iff.mpr h.regs
      arms := harms.nodup_iff.mpr h.arms
      dynamic := fun rn hrn ↦ ?_
      nodes := ?_
      value := fun rn hrn hreg ↦ ?_
      lane := fun reg lane hlane hreg hclean ↦ ?_
      handle := fun reg x hx ↦ ?_ }
  · refine or_congr_right (or_congr_right ⟨?_, ?_⟩)
    · rintro ⟨rn, hrn, rfl⟩
      obtain ⟨rn', hrn', hkey⟩ := hnew rn hrn
      exact ⟨rn', hrn', (hparts hkey).2⟩
    · rintro ⟨rn, hrn, rfl⟩
      obtain ⟨rn', hrn', hkey⟩ := hold rn hrn
      exact ⟨rn', hrn', (hparts hkey).2⟩
  · refine ⟨(h.temps y hy).1, fun rn hrn ↦ ?_⟩
    obtain ⟨rn', hrn', hkey⟩ := hold rn hrn
    exact (hparts hkey).2 ▸ (h.temps y hy).2 rn' hrn'
  · obtain ⟨rn', hrn', hkey⟩ := hold rn hrn
    exact (hparts hkey).2 ▸ h.ctxApart rn' hrn'
  · obtain ⟨rn', hrn', hkey⟩ := hold rn hrn
    exact (hparts hkey).1 ▸ h.dynamic rn' hrn'
  · have hlength := hregs.length_eq
    rw [List.length_map, List.length_map] at hlength
    show f.ctx.freePool + lru.length = 64
    rw [hlength]
    exact h.nodes
  · obtain ⟨rn', hrn', hkey⟩ := hold rn hrn
    obtain ⟨hnum, harm⟩ := hparts hkey
    have := h.value rn' hrn'
    rw [hnum, harm] at this
    exact this hreg
  · refine h.lane reg lane hlane hreg fun rn hrn hnum ↦ ?_
    obtain ⟨rn', hrn', hkey⟩ := hnew rn hrn
    by_contra hdirty'
    have := hdirty rn hrn (Bool.not_eq_false _ ▸ hdirty') rn' hrn' hkey
    exact Bool.false_ne_true ((hclean rn' hrn' ((hparts hkey).1.trans hnum)).symm.trans this)
  · rcases h.handle reg x hx with hfixed | ⟨rn, hrn, rfl, rfl⟩
    · exact .inl hfixed
    · obtain ⟨rn', hrn', hkey⟩ := htake rn hrn
      exact .inr ⟨rn', hrn', (hparts hkey).1, (hparts hkey).2⟩

/-- An emitter is given a register that stands for its operand. -/
theorem Tidy.give (h : Tidy f) {pending : Gpr → Bool}
    (hx : (intRegMapping reg ≠ noReg ∧ intRegMapping reg = x) ∨
      ∃ rn ∈ f.ctx.gprLru.take f.recent, rn.regNum = reg ∧ rn.arm = x)
    (hmore : ∀ reg', pending reg' = false → f.pending reg' = false)
    (hless : ∀ reg' ≠ reg, pending reg' = true → f.pending reg' = true) :
    Tidy { f with handle := Function.update f.handle reg (some x), pending := pending } := by
  refine { h with
      fixed := fun reg' hfixed hreg ↦ h.fixed reg' hfixed (hmore _ hreg)
      value := fun rn hrn hreg ↦ h.value rn hrn (hmore _ hreg)
      lane := fun reg' lane hlane hreg ↦ h.lane reg' lane hlane (hmore _ hreg)
      handle := fun reg' y hy ↦ ?_
      pending := fun reg' hreg ↦ ?_ }
  · by_cases hne : reg' = reg
    · subst hne
      have hyx : x = y :=
        Option.some.inj ((Function.update_self reg' (some x) f.handle).symm.trans hy)
      exact hyx ▸ hx
    · refine h.handle reg' y (Eq.trans ?_ hy)
      exact (Function.update_of_ne hne _ _).symm
  · by_cases hne : reg' = reg
    · rw [hne]
      exact congrArg Option.isSome (Function.update_self reg (some x) f.handle)
    · refine (congrArg Option.isSome (Function.update_of_ne hne (some x) f.handle)).trans ?_
      exact h.pending reg' (hless _ hne hreg)

theorem Tidy.nodes_left (h : Tidy f) : 0 < f.ctx.freePool := by
  have hsubset : (f.ctx.gprLru.map RegisterNode.arm).toFinset ⊆ Finset.range 12 := by
    intro x hx
    obtain ⟨rn, hrn, rfl⟩ := List.mem_map.mp (List.mem_toFinset.mp hx)
    exact Finset.mem_range.mpr (h.arm_lt hrn)
  have hcard := Finset.card_le_card hsubset
  rw [List.toFinset_card_of_nodup h.arms, List.length_map, Finset.card_range] at hcard
  have := h.nodes
  omega

/-- A register that was allocated is put in use for an operand. -/
theorem Tidy.adopt (h : Tidy f) (dirty : Bool) {pending : Gpr → Bool} (hx : f.temps x = true)
    (hdyn : intRegMapping reg = noReg) (hunused : ∀ rn ∈ f.ctx.gprLru, rn.regNum ≠ reg)
    (hload : pending reg = false →
      f.pending reg = false ∧ (f.host.regs x).setWidth 32 = f.ppc reg)
    (hother : ∀ reg' ≠ reg, pending reg' = f.pending reg') :
    Tidy { f with
      ctx := { f.ctx with
        freePool := f.ctx.freePool - 1
        gprLru := ⟨reg, x, dirty⟩ :: f.ctx.gprLru }
      temps := Function.update f.temps x false
      handle := Function.update f.handle reg (some x)
      pending := pending
      recent := f.recent + 1 } := by
  have hlt := h.temp_lt hx
  obtain ⟨hctx, hnode⟩ := h.temps x hx
  refine ⟨h.low, fun y ↦ (h.pool y).trans ?_, fun y hy ↦ ?_, ?_, ?_, ?_, ?_, ?_,
    fun reg' hfixed hreg ↦ ?_, ?_, fun reg' lane hlane hreg hclean ↦ ?_, fun reg' y hy ↦ ?_,
    fun reg' hreg ↦ ?_, h.context⟩
  · by_cases hyx : y = x
    · rw [hyx]
      exact iff_of_true (.inl hx) (.inr (.inr ⟨_, List.mem_cons_self, rfl⟩))
    · have hupdate : Function.update f.temps x false y = f.temps y := Function.update_of_ne hyx _ _
      show _ ↔ Function.update f.temps x false y = true ∨ _ ∨
        ∃ rn ∈ (⟨reg, x, dirty⟩ : RegisterNode) :: f.ctx.gprLru, rn.arm = y
      rw [hupdate, List.exists_mem_cons_iff]
      simp only [Ne.symm hyx, false_or]
  · by_cases hyx : y = x
    · rw [hyx] at hy
      exact absurd ((Function.update_self ..).symm.trans hy) Bool.false_ne_true
    · obtain ⟨hctx', hnode'⟩ := h.temps y (of_update hyx hy)
      exact ⟨hctx', List.forall_mem_cons.mpr ⟨Ne.symm hyx, hnode'⟩⟩
  · exact List.forall_mem_cons.mpr ⟨hctx.symm, h.ctxApart⟩
  · refine List.nodup_cons.mpr ⟨fun hmem ↦ ?_, h.regs⟩
    obtain ⟨rn, hrn, hnum⟩ := List.mem_map.mp hmem
    exact hunused rn hrn hnum
  · refine List.nodup_cons.mpr ⟨fun hmem ↦ ?_, h.arms⟩
    obtain ⟨rn, hrn, harm⟩ := List.mem_map.mp hmem
    exact hnode rn hrn harm
  · exact List.forall_mem_cons.mpr ⟨hdyn, h.dynamic⟩
  · have := h.nodes
    have := h.nodes_left
    show f.ctx.freePool - 1 + (f.ctx.gprLru.length + 1) = 64
    omega
  · have hne : reg' ≠ reg := by
      rintro rfl
      exact hfixed hdyn
    exact h.fixed reg' hfixed ((hother _ hne).symm.trans hreg)
  · refine List.forall_mem_cons.mpr ⟨fun hreg ↦ (hload hreg).2, fun rn hrn hreg ↦ ?_⟩
    exact h.value rn hrn ((hother _ (hunused rn hrn)).symm.trans hreg)
  · have hsettled : f.pending reg' = false := by
      by_cases hne : reg' = reg
      · rw [hne] at hreg ⊢
        exact (hload hreg).1
      · exact (hother _ hne).symm.trans hreg
    exact h.lane reg' lane hlane hsettled fun rn hrn ↦ hclean rn (List.mem_cons_of_mem _ hrn)
  · by_cases hne : reg' = reg
    · have hyx : some x = some y := by
        rw [hne] at hy
        exact (Function.update_self reg (some x) f.handle).symm.trans hy
      exact .inr ⟨_, List.mem_cons_self, hne.symm, Option.some.inj hyx⟩
    · have hold : f.handle reg' = some y :=
        Eq.trans (Function.update_of_ne hne (some x) f.handle).symm hy
      rcases h.handle reg' y hold with hfixed | ⟨rn, hrn, hparts⟩
      · exact .inl hfixed
      · exact .inr ⟨rn, List.mem_cons_of_mem _ hrn, hparts⟩
  · by_cases hne : reg' = reg
    · rw [hne]
      exact congrArg Option.isSome (Function.update_self reg (some x) f.handle)
    · refine (congrArg Option.isSome (Function.update_of_ne hne (some x) f.handle)).trans ?_
      exact h.pending reg' ((hother _ hne).symm.trans hreg)


theorem mem_take_moved {front back : List RegisterNode} {first rn : RegisterNode} {k : ℕ}
    (h : rn ∈ (front ++ first :: back).take k) : rn = first ∨ rn ∈ (front ++ back).take k := by
  rw [List.take_append, List.mem_append] at h ⊢
  rcases h with hfront | hback
  · exact .inr (.inl hfront)
  · cases hk : k - front.length with
    | zero =>
      rw [hk] at hback
      exact absurd hback List.not_mem_nil
    | succ m =>
      rw [hk, List.take_succ_cons, List.mem_cons] at hback
      exact hback.imp_right fun hmem ↦
        .inr (List.take_subset_take_left back (Nat.le_succ m) hmem)

theorem Tidy.map (h : Tidy f) (hroom : f.Roomy) {load setDirty : Bool}
    (hused : load = true ∨ setDirty = true) :
    ∃ f', f.call (.map reg load setDirty) = some f' ∧ Tidy f' := by
  have hmore : ∀ reg', (if load then f.pending else Function.update f.pending reg true) reg' =
      false → f.pending reg' = false := by
    intro reg' hreg
    split_ifs at hreg with hload
    · exact hreg
    · by_cases hne : reg' = reg
      · rw [hne, Function.update_self] at hreg
        exact absurd hreg (by decide)
      · rwa [Function.update_of_ne hne] at hreg
  have hother : ∀ reg' ≠ reg, (if load then f.pending else Function.update f.pending reg true) reg' =
      f.pending reg' := by
    intro reg' hne
    split_ifs
    · rfl
    · exact Function.update_of_ne hne _ _
  have hkept : Tidy { f with recent := f.recent + 1 } :=
    h.relist (List.Perm.refl _) (fun rn hrn hdirty rn' hrn' hkey ↦
      List.inj_on_of_nodup_map h.regs hrn' hrn (Prod.mk.inj hkey).1 ▸ hdirty)
      fun rn hrn ↦ ⟨rn, List.take_subset_take_left _ (Nat.le_succ _) hrn, rfl⟩
  unfold Frame.call Context.intMapGPR
  dsimp only
  by_cases hfixed : intRegMapping reg ≠ noReg
  · rw [if_pos hfixed]
    exact ⟨_, rfl, hkept.give (.inl ⟨hfixed, rfl⟩) hmore fun _ hne hreg ↦
      (hother _ hne).symm.trans hreg⟩
  · rw [if_neg hfixed]
    rw [not_not] at hfixed
    cases hfind : f.ctx.gprLru.find? (fun rn ↦ rn.regNum = reg) with
    | some rn =>
      -- it is moved to the front
      obtain ⟨hnum, front, back, hlru, hfront⟩ := List.find?_eq_some_iff_append.mp hfind
      have herase : f.ctx.gprLru.eraseP (fun rn ↦ rn.regNum = reg) = front ++ back := by
        rw [hlru, List.eraseP_append_right _ fun rn hrn ↦ by simpa using hfront rn hrn]
        exact congrArg (front ++ ·) (List.eraseP_cons_of_pos hnum)
      refine ⟨_, rfl, ?_⟩
      dsimp only
      rw [herase]
      have hmoved : Tidy { f with
          ctx := { f.ctx with
            gprLru := { rn with dirty := rn.dirty || setDirty } :: (front ++ back) }
          recent := f.recent + 1 } := by
        refine h.relist ?_ (fun rn' hrn' hdirty n hn hkey ↦ ?_) fun rn' hrn' ↦ ?_
        · rw [hlru]
          show (List.map RegisterNode.key (rn :: (front ++ back))).Perm _
          exact (List.perm_middle.map RegisterNode.key).symm
        · rcases List.mem_cons.mp hn with rfl | hn
          · have hrn : rn ∈ f.ctx.gprLru := List.mem_of_find?_eq_some hfind
            have hsame := List.inj_on_of_nodup_map h.regs hrn' hrn (Prod.mk.inj hkey).1.symm
            rw [← hsame, hdirty, Bool.true_or]
          · have hmem : n ∈ f.ctx.gprLru := by
              rw [hlru]
              exact List.perm_middle.mem_iff.mpr (List.mem_cons_of_mem _ hn)
            rwa [List.inj_on_of_nodup_map h.regs hmem hrn' (Prod.mk.inj hkey).1]
        · rw [hlru] at hrn'
          rw [List.take_succ_cons]
          rcases mem_take_moved hrn' with rfl | hmem
          · exact ⟨_, List.mem_cons_self, rfl⟩
          · exact ⟨rn', List.mem_cons_of_mem _ hmem, rfl⟩
      exact hmoved.give (.inr ⟨{ rn with dirty := rn.dirty || setDirty }, List.mem_cons_self,
        of_decide_eq_true hnum, rfl⟩) hmore fun _ hne hreg ↦ (hother _ hne).symm.trans hreg
    | none =>
      obtain ⟨c, code, armReg, halloc, hlt, htemp, -, hsub, hgrant⟩ := h.alloc hroom
      have hunused : ∀ rn ∈ c.gprLru, rn.regNum ≠ reg := fun rn hrn ↦ by
        simpa using List.find?_eq_none.mp hfind rn (hsub.subset hrn)
      obtain ⟨lane, hlane⟩ := Option.isSome_iff_exists.mp ((simdLane_isSome_iff reg).mpr hfixed)
      -- what is not in use is not waited for
      have hsettled : f.pending reg = false := by
        by_contra hpending
        obtain ⟨x, hx⟩ := Option.isSome_iff_exists.mp (h.pending _ (Bool.not_eq_false _ ▸ hpending))
        rcases h.handle _ x hx with ⟨hfixed', -⟩ | ⟨rn, hrn, hnum, -⟩
        · exact hfixed' hfixed
        · exact absurd (decide_eq_true hnum)
            (List.find?_eq_none.mp hfind rn (List.mem_of_mem_take hrn))
      have hbound : 0 < c.freePool := hgrant.nodes_left
      have htemps : Function.update (Function.update f.temps armReg true) armReg false =
          f.temps := by
        rw [Function.update_idem, ← htemp, Function.update_eq_self]
      rw [halloc, Option.bind_some]
      dsimp only
      rw [if_neg (Nat.ne_of_gt hbound)]
      refine ⟨_, rfl, ?_⟩
      have hmine : ((f.emit c code).grant armReg).temps armReg = true := Function.update_self ..
      cases load with
      | true =>
        have hloaded := hgrant.compute hmine (((f.host.exec code).simd lane).setWidth 64)
        have hresult := hloaded.adopt setDirty hmine hfixed hunused
          (fun _ ↦ ⟨hsettled, ?_⟩) fun _ _ ↦ rfl
        · have hcode : Host.exec (code ++ Context.fetch armReg reg) f.host =
              { f.host.exec code with
                regs := Function.update (f.host.exec code).regs armReg
                  (((f.host.exec code).simd lane).setWidth 64) } := by
            rw [Host.exec_append]
            unfold Context.fetch
            rw [hlane]
            rfl
          unfold Frame.emit
          rw [if_pos rfl, if_pos rfl]
          dsimp only
          rw [hcode]
          have := hresult
          unfold Frame.grant Frame.writeReg Frame.emit at this
          dsimp only at this
          rwa [htemps] at this
        · refine Eq.trans (congrArg _ (Function.update_self ..)) ?_
          rw [BitVec.setWidth_setWidth_of_le _ (by decide), BitVec.setWidth_eq]
          exact hgrant.lane reg lane hlane hsettled fun rn hrn hnum ↦ absurd hnum (hunused rn hrn)
      | false =>
        have hresult := hgrant.adopt setDirty hmine hfixed hunused
          (fun hreg ↦ absurd ((Function.update_self reg true f.pending).symm.trans hreg)
            (by decide))
          fun _ hne ↦ Function.update_of_ne hne true f.pending
        unfold Frame.grant Frame.emit at hresult
        dsimp only at hresult
        rw [htemps] at hresult
        unfold Frame.emit
        rw [if_neg Bool.false_ne_true, if_neg Bool.false_ne_true]
        dsimp only
        rwa [List.append_nil]

theorem Tidy.setDirty (h : Tidy f) (reg : Gpr) :
    Tidy { f with ctx := f.ctx.setDirtyGPR reg } := by
  unfold Context.setDirtyGPR
  split_ifs with hfixed
  · exact h
  · have hkey : ∀ rn : RegisterNode,
        (if rn.regNum = reg then { rn with dirty := true } else rn).key = rn.key := by
      intro rn
      split_ifs <;> rfl
    refine h.relist ?_ (fun rn hrn hdirty rn' hrn' hsame ↦ ?_) fun rn hrn ↦ ?_
    · rw [List.map_map]
      exact List.Perm.of_eq (List.map_congr_left fun rn _ ↦ hkey rn)
    · obtain ⟨n, hn, rfl⟩ := List.mem_map.mp hrn'
      rw [hkey] at hsame
      rw [List.inj_on_of_nodup_map h.regs hn hrn (Prod.mk.inj hsame).1]
      split_ifs
      · rfl
      · exact hdirty
    · rw [← List.map_take]
      exact ⟨_, List.mem_map_of_mem hrn, hkey rn⟩

/-! ### The context pointer -/

theorem Tidy.getCTX (h : Tidy f) (hroom : f.ctx.regCtx = noReg → f.Roomy) :
    ∃ f', f.call .getCTX = some f' ∧ Tidy f' := by
  unfold Frame.call Context.getCTX
  dsimp only
  by_cases hnone : f.ctx.regCtx = noReg
  · obtain ⟨c, code, armReg, halloc, hlt, htemp, hctx, -, hgrant⟩ := h.alloc (hroom hnone)
    have hmine : ((f.emit c code).grant armReg).temps armReg = true := Function.update_self ..
    have hloaded := hgrant.compute hmine (f.host.exec code).context
    have hnode := (hgrant.temps armReg hmine).2
    have hne : armReg ≠ noReg := ne_noReg_of_lt hlt
    rw [if_pos hnone, halloc]
    refine ⟨_, rfl, ?_⟩
    unfold Frame.emit
    dsimp only
    rw [Host.exec_append]
    refine { hloaded with
      pool := fun y ↦ (hloaded.pool y).trans ?_
      temps := fun y hy ↦ ?_
      ctxApart := fun rn hrn ↦ hnode rn hrn
      context := fun _ ↦ Function.update_self .. }
    · by_cases hy : y = armReg
      · rw [hy]
        exact iff_of_true (.inl hmine) (.inr (.inl ⟨rfl, hne⟩))
      · have hupdate : Function.update f.temps armReg true y = f.temps y :=
          Function.update_of_ne hy _ _
        have hunset : ¬ (c.regCtx = y ∧ y ≠ noReg) := fun hset ↦
          hset.2 (hset.1.symm.trans (hctx.trans hnone))
        show Function.update f.temps armReg true y = true ∨ (c.regCtx = y ∧ y ≠ noReg) ∨ _ ↔
          f.temps y = true ∨ (armReg = y ∧ y ≠ noReg) ∨ _
        rw [hupdate]
        refine or_congr_right (or_congr_left ?_)
        exact iff_of_false hunset fun hset ↦ hy hset.1.symm
    · have hyne : y ≠ armReg := by
        rintro rfl
        exact Bool.false_ne_true (htemp.symm.trans hy)
      refine ⟨hyne.symm, (hgrant.temps y ?_).2⟩
      exact (Function.update_of_ne hyne _ _).trans hy
  · rw [if_neg hnone]
    exact ⟨_, rfl, h⟩

theorem Tidy.flushCTX (h : Tidy f) : Tidy { f with ctx := f.ctx.flushCTX } := by
  unfold Context.flushCTX
  by_cases hnone : f.ctx.regCtx = noReg
  · rw [if_neg (not_not.mpr hnone)]
    have hsame : ({ f.ctx with regCtx := noReg } : Context) = f.ctx := by
      rw [← hnone]
    rw [hsame]
    exact h
  · rw [if_pos hnone]
    have hpool := (h.pool f.ctx.regCtx).mpr (.inr (.inl ⟨rfl, hnone⟩))
    have hlt := h.low _ hpool
    have hctx : f.ctx.freeARMRegister f.ctx.regCtx =
        { f.ctx with gprTmpPool := Function.update f.ctx.gprTmpPool f.ctx.regCtx false } := by
      unfold Context.freeARMRegister
      rw [if_neg (Nat.not_lt.mpr (Nat.le_of_lt_succ hlt))]
    rw [hctx]
    refine { h with
      low := fun y hy ↦ ?_
      pool := fun y ↦ ?_
      temps := fun y hy ↦ ⟨(ne_noReg_of_lt (h.temp_lt hy)).symm, (h.temps y hy).2⟩
      ctxApart := fun rn hrn ↦ ne_noReg_of_lt (h.arm_lt hrn)
      context := fun hctx ↦ absurd rfl hctx }
    · by_cases hyx : y = f.ctx.regCtx
      · exact hyx ▸ hlt
      · exact h.low y (of_update hyx hy)
    · by_cases hyx : y = f.ctx.regCtx
      · rw [hyx]
        refine iff_of_false ?_ ?_
        · exact fun hpool ↦ Bool.false_ne_true ((Function.update_self ..).symm.trans hpool)
        · rintro (htemp | ⟨heq, -⟩ | ⟨rn, hrn, harm⟩)
          · exact (h.temps _ htemp).1 rfl
          · exact hnone heq.symm
          · exact h.ctxApart rn hrn harm
      · have hpool := h.pool y
        rw [← Function.update_of_ne hyx false f.ctx.gprTmpPool] at hpool
        refine hpool.trans (or_congr_right (or_congr_left (iff_of_false ?_ ?_)))
        · exact fun hset ↦ hyx hset.1.symm
        · exact fun hset ↦ hset.2 hset.1.symm

/-! ### Stores -/

/-- When nothing is waited for, a store puts every value into its lane. -/
theorem Tidy.stored (h : Tidy f) (hsettled : f.Settled) {lane : ℕ × ℕ}
    (hlane : simdLane reg = some lane) :
    (f.host.exec f.ctx.storeDirtyGPRs).simd lane = f.ppc reg := by
  by_cases hdirty : ∃ rn ∈ f.ctx.gprLru, rn.regNum = reg ∧ rn.dirty = true
  · obtain ⟨rn, hrn, rfl, hdirty⟩ := hdirty
    exact (Context.storeDirty_lane h.regs hrn hdirty hlane).trans (h.value rn hrn (hsettled _))
  · refine (Context.storeDirty_other h.regs fun rn hrn hrndirty hrnlane ↦ ?_).trans
      (h.lane reg lane hlane (hsettled _) fun rn hrn hnum ↦ ?_)
    · have hnum := simdLane_injective rn.regNum reg (hrnlane ▸ rfl) (hrnlane.trans hlane.symm)
      exact hdirty ⟨rn, hrn, hnum, hrndirty⟩
    · by_contra hrndirty
      exact hdirty ⟨rn, hrn, hnum, Bool.not_eq_false _ ▸ hrndirty⟩

theorem Tidy.storeDirty (h : Tidy f) (hsettled : f.Settled) :
    Tidy (f.emit f.ctx f.ctx.storeDirtyGPRs) := by
  obtain ⟨hregs, hcontext⟩ := exec_items (Context.dirtyItems f.ctx.gprLru) f.host
  refine { h with
    fixed := fun reg hfixed hreg ↦ ?_
    value := fun rn hrn hreg ↦ ?_
    lane := fun reg lane hlane _ _ ↦ h.stored hsettled hlane
    context := fun hctx ↦ ?_ }
  · refine Eq.trans ?_ (h.fixed reg hfixed hreg)
    exact congrArg (fun regs ↦ (regs (intRegMapping reg)).setWidth 32) hregs
  · refine Eq.trans ?_ (h.value rn hrn hreg)
    exact congrArg (fun regs ↦ (regs rn.arm).setWidth 32) hregs
  · exact (congrFun hregs _).trans ((h.context hctx).trans hcontext.symm)

theorem foldl_free {lru : List RegisterNode} (hlow : ∀ rn ∈ lru, rn.arm < 12) (c : Context) :
    ∃ pool, lru.foldl (fun c rn ↦ c.freeARMRegister rn.arm) c = { c with gprTmpPool := pool } ∧
      ∀ y, pool y = true ↔ c.gprTmpPool y = true ∧ ∀ rn ∈ lru, rn.arm ≠ y := by
  induction lru generalizing c with
  | nil => exact ⟨_, rfl, fun y ↦ by simp⟩
  | cons rn lru ih =>
    obtain ⟨hrn, hrest⟩ := List.forall_mem_cons.mp hlow
    obtain ⟨pool, heq, hpool⟩ := ih hrest (c.freeARMRegister rn.arm)
    have hfree : c.freeARMRegister rn.arm =
        { c with gprTmpPool := Function.update c.gprTmpPool rn.arm false } := by
      unfold Context.freeARMRegister
      rw [if_neg (Nat.not_lt.mpr (Nat.le_of_lt_succ hrn))]
    refine ⟨pool, ?_, fun y ↦ (hpool y).trans ?_⟩
    · rw [List.foldl_cons, heq, hfree]
    · rw [hfree, List.forall_mem_cons]
      by_cases hy : rn.arm = y
      · subst hy
        refine iff_of_false (fun hset ↦ ?_) fun hset ↦ hset.2.1 rfl
        exact Bool.false_ne_true ((Function.update_self ..).symm.trans hset.1)
      · show Function.update c.gprTmpPool rn.arm false y = true ∧ _ ↔ _
        rw [Function.update_of_ne (Ne.symm hy)]
        exact and_congr_right fun _ ↦ ⟨fun hall ↦ ⟨hy, hall⟩, fun hall ↦ hall.2⟩

/-- After a flush only the registers of the emitters and the context pointer are in use. -/
theorem Tidy.flushed (h : Tidy f) (y : Reg) : f.ctx.flushAllGPRs.1.gprTmpPool y = true ↔
    f.temps y = true ∨ (f.ctx.regCtx = y ∧ y ≠ noReg) := by
  obtain ⟨pool, heq, hpool⟩ := foldl_free (fun rn hrn ↦ h.arm_lt hrn) f.ctx
  unfold Context.flushAllGPRs
  dsimp only
  rw [heq, hpool y, h.pool y]
  constructor
  · rintro ⟨htemp | hctx | ⟨rn, hrn, harm⟩, hnone⟩
    · exact .inl htemp
    · exact .inr hctx
    · exact absurd harm (hnone rn hrn)
  · rintro (htemp | hctx)
    · exact ⟨.inl htemp, (h.temps y htemp).2⟩
    · exact ⟨.inr (.inl hctx), fun rn hrn ↦ hctx.1 ▸ h.ctxApart rn hrn⟩

theorem Tidy.flush (h : Tidy f) (hsettled : f.Settled) :
    Tidy { f.emit f.ctx.flushAllGPRs.1 f.ctx.flushAllGPRs.2 with handle := fun _ ↦ none } := by
  have hstored := h.storeDirty hsettled
  have hpool := h.flushed
  obtain ⟨pool, heq, -⟩ := foldl_free (fun rn hrn ↦ h.arm_lt hrn) f.ctx
  have hflush : f.ctx.flushAllGPRs.1 = { f.ctx with
      gprTmpPool := f.ctx.flushAllGPRs.1.gprTmpPool
      gprLru := []
      freePool := f.ctx.freePool + f.ctx.gprLru.length } := by
    unfold Context.flushAllGPRs
    dsimp only
    rw [heq]
  rw [hflush]
  refine ⟨fun y hy ↦ ?_, fun y ↦ (hpool y).trans ?_, fun y hy ↦ ⟨(h.temps y hy).1, ?_⟩, ?_,
    List.nodup_nil, List.nodup_nil, ?_, h.nodes, hstored.fixed, ?_,
    fun reg lane hlane _ _ ↦ h.stored hsettled hlane, fun _ _ hx ↦ ?_, fun reg hreg ↦ ?_,
    hstored.context⟩
  · rcases (hpool y).mp hy with htemp | ⟨hctx, hne⟩
    · exact h.temp_lt htemp
    · exact h.low y ((h.pool y).mpr (.inr (.inl ⟨hctx, hne⟩)))
  · exact or_congr_right ⟨.inl, fun hset ↦ hset.resolve_right fun hnode ↦
      absurd hnode.choose_spec.1 List.not_mem_nil⟩
  · exact fun rn hrn ↦ absurd hrn List.not_mem_nil
  · exact fun rn hrn ↦ absurd hrn List.not_mem_nil
  · exact fun rn hrn ↦ absurd hrn List.not_mem_nil
  · exact fun rn hrn ↦ absurd hrn List.not_mem_nil
  · exact absurd hx.symm (Option.some_ne_none _)
  · exact absurd ((hsettled reg).symm.trans hreg) (by decide)

/-! ### Runs -/

theorem tidy_start (host : Host) (lastAllocated : ℕ) : Tidy (start host lastAllocated).frame where
  low := fun _ hx ↦ absurd hx Bool.false_ne_true
  pool := fun x ↦ iff_of_false Bool.false_ne_true (by
    rintro (htemp | ⟨heq, hne⟩ | ⟨rn, hrn, -⟩)
    · exact Bool.false_ne_true htemp
    · exact hne heq.symm
    · exact absurd hrn List.not_mem_nil)
  temps := fun _ hx ↦ absurd hx Bool.false_ne_true
  ctxApart := fun _ hrn ↦ absurd hrn List.not_mem_nil
  regs := List.nodup_nil
  arms := List.nodup_nil
  dynamic := fun _ hrn ↦ absurd hrn List.not_mem_nil
  nodes := rfl
  fixed := fun _ hfixed _ ↦ (if_pos hfixed).symm
  value := fun _ hrn ↦ absurd hrn List.not_mem_nil
  lane := fun reg lane hlane _ _ ↦ by
    have hdyn := (simdLane_isSome_iff reg).mp (hlane ▸ rfl)
    show _ = ite _ _ _
    rw [if_neg (not_not.mpr hdyn), hlane]
    rfl
  handle := fun _ _ hx ↦ absurd hx.symm (Option.some_ne_none _)
  pending := fun _ hreg ↦ absurd hreg Bool.false_ne_true
  context := fun hctx ↦ absurd rfl hctx

/-- One call keeps the invariant. -/
theorem call_tidy {f' : Frame} {s : Session} (h : Tidy s.frame) (op : GprCall) (hok : WellUsed s op)
    (hcall : s.frame.call op = some f') : Tidy f' := by
  cases op with
  | alloc =>
    obtain ⟨c, code, armReg, halloc, -, -, -, -, hgrant⟩ := h.alloc hok
    unfold Frame.call at hcall
    dsimp only at hcall
    rw [halloc] at hcall
    exact Option.some.inj hcall ▸ hgrant
  | free armReg => exact Option.some.inj hcall ▸ h.free hok
  | map reg load setDirty =>
    obtain ⟨f'', hmap, htidy⟩ : ∃ f'', s.frame.call (.map reg load setDirty) = some f'' ∧ Tidy f'' :=
      h.map hok.2 hok.1
    exact Option.some.inj (hmap.symm.trans hcall) ▸ htidy
  | setDirty reg => exact Option.some.inj hcall ▸ h.setDirty reg
  | write reg value =>
    obtain ⟨armReg, harm, rfl⟩ := Option.map_eq_some_iff.mp hcall
    exact h.write harm hok value
  | compute armReg value => exact Option.some.inj hcall ▸ h.compute hok value
  | getCTX =>
    obtain ⟨f'', hget, htidy⟩ := h.getCTX hok
    exact Option.some.inj (hget.symm.trans hcall) ▸ htidy
  | flushCTX => exact Option.some.inj hcall ▸ h.flushCTX
  | finish =>
    refine Option.some.inj hcall ▸ { h with
      handle := fun _ _ hx ↦ absurd hx.symm (Option.some_ne_none _)
      pending := fun reg hreg ↦ absurd ((hok reg).symm.trans hreg) (by decide) }
  | storeDirtyGPRs => exact Option.some.inj hcall ▸ h.storeDirty hok
  | flushAllGPRs => exact Option.some.inj hcall ▸ h.flush hok
  | save => exact Option.some.inj hcall ▸ h
  | restore => exact Option.some.inj hcall ▸ h

theorem Tidy.safe (h : Tidy f) : Safe f where
  value := fun _ hreg ↦ h.read hreg
  handle := fun _ _ hx ↦ h.handle_eq hx
  context := h.context
  fresh := fun hroom ↦ by
    obtain ⟨c, code, armReg, halloc, hlt, htemp, -, -, hgrant⟩ := h.alloc hroom
    have hmine : ((f.emit c code).grant armReg).temps armReg = true := Function.update_self ..
    refine ⟨c, code, armReg, halloc, hlt, htemp, (hgrant.temps _ hmine).1, fun reg hreg ↦ ?_,
      hgrant.tryGetGPR_ne hmine⟩
    exact hgrant.tryGetGPR_ne hmine reg (hgrant.handle_eq hreg)
  mapped := fun hroom reg load setDirty ↦ by
    unfold Context.intMapGPR
    by_cases hfixed : intRegMapping reg ≠ noReg
    · rw [if_pos hfixed]
      rfl
    · rw [if_neg hfixed]
      cases f.ctx.gprLru.find? (fun rn ↦ rn.regNum = reg) with
      | some rn => rfl
      | none =>
        obtain ⟨c, code, armReg, halloc, -, -, -, -, hgrant⟩ := h.alloc hroom
        have hbound : 0 < c.freePool := hgrant.nodes_left
        rw [halloc, Option.bind_some]
        dsimp only
        rw [if_neg (Nat.ne_of_gt hbound)]
        rfl
  stored := fun hsettled _ _ hlane ↦ h.stored hsettled hlane
  flushed := h.flushed

end Emu68.Ppc.RegisterCache
