/-
# Crashes of the interpreter

Whatever a program does, the interpreter of `pvm/interpreter/vmgo.go` should not index or slice
outside the operand bytes, the code, the bitmask or the jump table, and what goes wrong should end
the run of the guest (`CrashFree`).

The code and the jump table are guarded, and every run ends as it should (`loop_ends`). The
bitmask is not: `DecodeCorePart` accepts fewer bits than there are bytes of code, and `step` indexes
it with any program counter inside the code. The operands are not either: a length in them is
taken as it is, and `HandleTwoImms` indexes the first byte where there may be none, which is a
run-time error of the host (`bareStore_crashes`). `crashFree_iff` says which accepted programs are
safe.
-/

import JamDuna.Pvm.BlobDecoding
import JamDuna.Pvm.ControlFlow
import JamDuna.Pvm.GasSteps
import JamDuna.Pvm.OperandBounds

namespace JamDuna.Pvm

open JamDuna.Basis List Option UInt64 VMGo

section

variable {σ : Type}

/-- The host serves every call. -/
def Serves (calls : HostCalls σ) : Prop := ∀ id gas reg ram host, (calls id gas reg ram host).isSome

/-- The machine has gas to execute the instruction it has come to. -/
structure VMGo.Executes (p : Program) (vm : VMGo σ) (inst : Instruction) : Prop where
  inside : vm.pc.toNat < p.code.length
  fetched : p.fetch vm.pc.toNat = some (some inst)
  paid : ¬(vm.charge 1).gas < 0

/-- How a machine came to its end. -/
inductive Ended (p : VMProgram) (Before : VMGo σ → Prop) (vm : VMGo σ) : Prop where
  | panicked (h : vm.toGuest.Stopped)
  | outOfGas (hend : vm.terminated = true) (hcode : vm.resultCode = .oog)
  /-- an inner machine hands a host call to the machine around it -/
  | hostCall (hchild : vm.isChild = true) (hend : vm.terminated = true)
      (hstate : vm.machineState = .host)
  /-- an indirect jump of a machine before went to the halt address -/
  | halted (u : VMGo σ) (inst : Instruction) (hbefore : Before u)
      (hexec : u.Executes p.toProgram inst)
      (haddr : inst.indirectAddress u.toGuest = some haltAddress) (hend : vm.terminated = true)
      (hcode : vm.resultCode = .ok)

/-- No index and no slice of the interpreter is out of bounds, and every run that ends has ended
as it should. -/
structure CrashFree (p : VMProgram) : Prop where
  build : ∀ pc < p.code.length, Marked p.bitmask pc →
    (decode (p.instruction pc).opcode (p.instruction pc).args).isSome
  run : ∀ (σ : Type) (calls : HostCalls σ), Serves calls → p.code ≠ [] → p.bitmask ≠ [] →
    ∀ start vm : VMGo σ, Reached (executeRound p.toProgram (handle p) calls) start vm →
      vm.terminated = false → vm.step p.toProgram (handle p) calls ≠ none ∧
        ∀ inst, vm.Executes p.toProgram inst → inst.ExtractInside
  table : ∀ (g : Guest) (a : UInt64),
    g.djump p a = { g with terminated := true, resultCode := .ok } ∨ g.djump p a = g.trap ∨
      ∃ (k : ℕ) (target : UInt32), p.J[k]? = some target ∧
        g.djump p a = { g with pc := target.toUInt64 }
  ends : ∀ (σ : Type) (calls : HostCalls σ) (start vm : VMGo σ) (fuel : ℕ),
    start.terminated = false →
    loop (executeRound p.toProgram (handle p) calls) fuel start = some (some vm) →
      Ended p (Reached (executeRound p.toProgram (handle p) calls) start) vm

variable {p : VMProgram} {calls : HostCalls σ} {start vm vm' : VMGo σ} {Before : VMGo σ → Prop}

theorem Ended.finish (h : Ended p Before vm) : Ended p Before vm.finish := by
  unfold VMGo.finish
  split_ifs
  · exact h
  · cases h with
    | panicked h => exact .panicked h
    | outOfGas hend hcode => exact .outOfGas hend hcode
    | hostCall hchild hend hstate => exact .hostCall hchild hend hstate
    | halted u inst hbefore hexec haddr hend hcode =>
      exact .halted u inst hbefore hexec haddr hend hcode

theorem toGuest_chargeTransfer (vm : VMGo σ) (id : UInt64) :
    (vm.chargeTransfer id).toGuest = vm.toGuest := by
  unfold chargeTransfer
  split_ifs <;> rfl

variable {id : UInt64} {e : Option StepError}

theorem invoke_status (h : vm.invoke calls id = some vm') :
    vm'.terminated = vm.terminated ∨ vm'.toGuest.Stopped := by
  obtain ⟨r, -, rfl⟩ := map_eq_some_iff.mp h
  split_ifs
  · exact .inr ⟨rfl, rfl⟩
  · exact .inl rfl

/-- A host call leaves the machine running, or it has stopped with `PANIC`. -/
theorem callHost_status (h : vm.callHost calls id = some vm') :
    vm'.terminated = vm.terminated ∨ vm'.toGuest.Stopped := by
  obtain ⟨called, hcalled, rfl⟩ := map_eq_some_iff.mp h
  dsimp only
  split_ifs
  · exact .inr ⟨rfl, rfl⟩
  · rw [toGuest_chargeTransfer]
    exact invoke_status hcalled

/-- How an instruction other than ECALLI can end. -/
theorem execute_outcome {inst : Instruction} {g g' : Guest}
    (h : g.execute (handle p) inst = some g') : Outcome inst g g' := by
  unfold Guest.execute at h
  split_ifs at h with htrap hfall hsets hadvances
  · cases h
    exact .stopped g.stopped_trap
  · cases h
    exact .kept ⟨rfl, rfl⟩
  · exact handle_outcome h
  · obtain ⟨g₁, hg₁, rfl⟩ := map_eq_some_iff.mp h
    have houtcome := handle_outcome hg₁
    by_cases hend : g₁.terminated = true
    · rwa [if_pos hend]
    · rw [if_neg hend]
      cases houtcome with
      | kept hsame => exact .kept ⟨hsame.terminated, hsame.resultCode⟩
      | stopped hstop => exact absurd hstop.terminated hend
      | halted _ hend' => exact absurd hend' hend
  · cases h
    exact .stopped g.stopped_trap

/-- ECALLI ends a run out of gas, in a panic of the host, or for an inner machine. -/
theorem ecalli_ends {inst : Instruction} (hrun : vm.terminated = false)
    (h : vm.ecalli calls inst = some (vm', e)) (hend : e ≠ none ∨ vm'.terminated = true) :
    Ended p Before vm' := by
  unfold ecalli at h
  dsimp only at h
  split_ifs at h with hchild hoog
  · cases h
    exact .hostCall hchild rfl rfl
  · cases h
    exact .outOfGas rfl rfl
  · obtain ⟨called, hcalled, hout⟩ := map_eq_some_iff.mp h
    obtain ⟨rfl, rfl⟩ := Prod.mk.inj hout
    have hterminated : called.terminated = true := hend.resolve_left fun hne => hne rfl
    rcases callHost_status hcalled with hsame | hstop
    · exact absurd (hterminated.symm.trans (hsame.trans hrun)) (by decide)
    · exact .panicked hstop

/-- **How a step ends a run.** -/
theorem step_ends (hrun : vm.terminated = false) (hbefore : Before vm)
    (h : vm.step p.toProgram (handle p) calls = some (vm', e))
    (hend : e ≠ none ∨ vm'.terminated = true) : Ended p Before vm' := by
  unfold step at h
  by_cases hbounds : p.code.length ≤ vm.pc.toNat
  · rw [if_pos hbounds] at h
    cases h
    exact .panicked ⟨rfl, rfl⟩
  · rw [if_neg hbounds] at h
    split at h
    · cases h
    · cases h
      exact .panicked ⟨rfl, rfl⟩
    · next inst hfetch =>
      split_ifs at h with hoog hecalli
      · cases h
        exact .outOfGas rfl rfl
      · have hrun' : (vm.charge 1).terminated = false := hrun
        exact ecalli_ends hrun' h hend
      · obtain ⟨g, hg, hout⟩ := map_eq_some_iff.mp h
        cases hout
        have hterminated : g.terminated = true := hend.resolve_left fun hne => hne rfl
        cases execute_outcome hg with
        | kept hsame =>
          exact absurd (hterminated.symm.trans (hsame.terminated.trans hrun)) (by decide)
        | stopped hstop => exact .panicked hstop
        | halted haddr _ hok =>
          exact .halted vm inst hbefore ⟨not_le.mp hbounds, hfetch, hoog⟩ haddr hterminated hok

/-- **How a run ends.** -/
theorem loop_ends {fuel : ℕ} (hstart : start.terminated = false)
    (h : loop (executeRound p.toProgram (handle p) calls) fuel start = some (some vm)) :
    Ended p (Reached (executeRound p.toProgram (handle p) calls) start) vm := by
  obtain ⟨t, hreached, hdone⟩ := reached_of_loop h
  -- a machine at the head of the loop that has terminated has ended as it should
  have hhead : t.terminated = true →
      Ended p (Reached (executeRound p.toProgram (handle p) calls) start) t := by
    refine hreached.invariant (P := fun t => t.terminated = true →
      Ended p (Reached (executeRound p.toProgram (handle p) calls) start) t) ?_ ?_
    · intro hend
      exact absurd (hstart.symm.trans hend) (by decide)
    · intro u u' hu _ hround hend
      obtain ⟨hrun, hstep, -⟩ := executeRound_next hround
      exact step_ends hrun hu hstep (.inr hend)
  rcases executeRound_done hdone with ⟨hend, rfl⟩ | ⟨hrun, ⟨e, hstep⟩ | ⟨u, -, rfl⟩⟩
  · exact (hhead hend).finish
  · exact step_ends hrun hreached hstep (.inl nofun)
  · exact .outOfGas rfl rfl

variable {inst : Instruction}

theorem fetch_of_marked {p : Program} {pc : ℕ} (h : Marked p.bitmask pc) :
    p.fetch pc = some (some (p.instruction pc)) := by
  unfold Marked at h
  rw [getD_eq_getElem?_getD] at h
  unfold Program.fetch
  cases hmark : p.bitmask[pc]? with
  | none =>
    rw [hmark] at h
    exact absurd rfl h
  | some mark =>
    rw [hmark] at h
    exact congrArg some (if_neg h)

theorem marked_of_fetch {p : Program} {pc : ℕ} (h : p.fetch pc = some (some inst)) :
    Marked p.bitmask pc ∧ inst = p.instruction pc := by
  unfold Program.fetch at h
  cases hmark : p.bitmask[pc]? with
  | none =>
    rw [hmark] at h
    cases h
  | some mark =>
    rw [hmark] at h
    dsimp only at h
    split_ifs at h with hzero
    · exact nomatch some.inj h
    · refine ⟨?_, (some.inj (some.inj h)).symm⟩
      unfold Marked
      rw [getD_eq_getElem?_getD, hmark]
      exact hzero

theorem length_le_of_fetch {p : Program} {pc : ℕ} (h : p.fetch pc = none) :
    p.bitmask.length ≤ pc := by
  unfold Program.fetch at h
  split at h
  · next hmark => exact getElem?_eq_none_iff.mp hmark
  · cases h

/-- The bitmask is indexed with the program counter. -/
theorem step_eq_none_of_fetch {p : Program} {exec : Instruction → Guest → Option Guest}
    (hpc : vm.pc.toNat < p.code.length) (hfetch : p.fetch vm.pc.toNat = none) :
    vm.step p exec calls = none := by
  unfold step
  rw [if_neg hpc.not_ge, hfetch]

/-- The host function that the machine calls returns, if it calls one. -/
def VMGo.Served (p : Program) (calls : HostCalls σ) (vm : VMGo σ) : Prop :=
  ∀ id called, vm.pendingCall p = some (id, called) → called.invoke calls id ≠ none

theorem Serves.served {p : Program} (h : Serves calls) (vm : VMGo σ) : vm.Served p calls := by
  intro id called _ hnone
  have hhost := map_eq_none_iff.mp hnone
  exact absurd (h _ _ _ _ _) (by rw [hhost]; exact Bool.false_ne_true)

/-- An ECALLI returns if its host function does. -/
theorem ecalli_ne_none (h : vm.isChild = false → ¬(vm.paid inst).gas < 0 →
    (vm.paid inst).invoke calls inst.imm ≠ none) : (vm.charge 1).ecalli calls inst ≠ none := by
  unfold ecalli
  dsimp only
  split_ifs with hchild hgas
  · exact nofun
  · exact nofun
  · intro hnone
    exact h (Bool.eq_false_iff.mpr hchild) hgas (map_eq_none_iff.mp (map_eq_none_iff.mp hnone))

theorem execute_ne_none {g : Guest} (h : inst.OperandsInside) :
    g.execute (handle p) inst ≠ none := by
  unfold Guest.execute
  split_ifs
  · exact nofun
  · exact nofun
  · exact h.handle_ne_none p g
  · exact fun hnone => h.handle_ne_none p g (map_eq_none_iff.mp hnone)
  · exact nofun

/-- The slices of all instructions are inside their operands, and the bitmask is as long as the
code, or empty. -/
structure SafeProgram (p : VMProgram) : Prop where
  operands : ∀ pc < p.code.length, Marked p.bitmask pc → (p.instruction pc).OperandsInside
  bits : p.bitmask = [] ∨ p.code.length ≤ p.bitmask.length

/-- **No step of a safe program crashes.** -/
theorem SafeProgram.step_ne_none {σ : Type} {calls : HostCalls σ} {vm : VMGo σ} (h : SafeProgram p)
    (hbits : p.bitmask ≠ []) (hserved : vm.Served p.toProgram calls) :
    vm.step p.toProgram (handle p) calls ≠ none := by
  unfold step
  by_cases hbounds : p.code.length ≤ vm.pc.toNat
  · rw [if_pos hbounds]
    exact nofun
  · rw [if_neg hbounds]
    split
    · next hfetch =>
      have hshort := length_le_of_fetch hfetch
      have hlong := h.bits.resolve_left hbits
      exact absurd (hlong.trans hshort) hbounds
    · exact nofun
    · next inst hfetch =>
      obtain ⟨hmarked, rfl⟩ := marked_of_fetch hfetch
      split_ifs with hgas hcall
      · exact nofun
      · refine ecalli_ne_none fun hchild hpaid => hserved _ _ ?_
        unfold pendingCall
        rw [if_neg hbounds, hfetch]
        exact if_pos ⟨hcall, hchild, hgas, hpaid⟩
      · exact fun hnone => execute_ne_none (h.operands _ (not_le.mp hbounds) hmarked)
          (map_eq_none_iff.mp hnone)

theorem SafeProgram.crashFree (h : SafeProgram p) : CrashFree p where
  build pc hpc hmarked := ((operandsInside_iff _).mp (h.operands pc hpc hmarked)).1
  run σ calls hserves _ hbits start vm _ _ := by
    refine ⟨h.step_ne_none hbits (hserves.served vm), fun inst hexec => ?_⟩
    obtain ⟨hmarked, rfl⟩ := marked_of_fetch hexec.fetched
    exact ((operandsInside_iff _).mp (h.operands _ hexec.inside hmarked)).2
  table g a := by
    rcases g.djump_cases p a with ⟨-, heq⟩ | heq | ⟨k, hk, -, -, -, heq⟩
    · exact .inl heq
    · exact .inr (.inl heq)
    · refine .inr (.inr ⟨k, p.J.getD k 0, ?_, heq⟩)
      rw [getD_eq_getElem?_getD, getElem?_eq_getElem hk]
      rfl
  ends _ _ _ _ _ hstart hloop := loop_ends hstart hloop

theorem serves_idleHost : Serves idleHost := fun _ _ _ _ _ => rfl

theorem CrashFree.step_jumper (h : CrashFree p) (hcode : p.code ≠ []) (hbits : p.bitmask ≠ [])
    (pc : UInt64) : (jumper pc 0).step p.toProgram (handle p) idleHost ≠ none ∧
      ∀ inst, (jumper pc 0).Executes p.toProgram inst → inst.ExtractInside :=
  h.run Unit idleHost serves_idleHost hcode hbits (jumper pc 0) (jumper pc 0) .refl rfl

/-- A program that does not crash is safe, if all its code can be reached. -/
theorem CrashFree.safe (h : CrashFree p) (hlen : p.code.length < 2 ^ 64) : SafeProgram p where
  operands pc hpc hmarked := by
    have hcode : p.code ≠ [] := ne_nil_of_length_pos (by omega)
    have hbits : p.bitmask ≠ [] := by
      rintro hnil
      rw [hnil] at hmarked
      exact hmarked rfl
    have hreach : (ofNat pc).toNat = pc := toNat_ofNat_of_lt' (hpc.trans hlen)
    have hexec : (jumper (ofNat pc) 0).Executes p.toProgram (p.instruction pc) :=
      ⟨hreach.trans_lt hpc, (congrArg p.fetch hreach).trans (fetch_of_marked hmarked),
        show ¬(100 - 1 : Int64) < 0 by decide⟩
    exact (operandsInside_iff _).mpr
      ⟨h.build pc hpc hmarked, (h.step_jumper hcode hbits _).2 _ hexec⟩
  bits := by
    by_contra hbits
    obtain ⟨hne, hshort⟩ := not_or.mp hbits
    have hcode : p.code ≠ [] := ne_nil_of_length_pos (by omega)
    have hreach : (ofNat p.bitmask.length).toNat = p.bitmask.length :=
      toNat_ofNat_of_lt' (lt_trans (not_le.mp hshort) hlen)
    -- the first byte of the code without a bit
    refine (h.step_jumper hcode hne (ofNat p.bitmask.length)).1 ?_
    refine step_eq_none_of_fetch (hreach.trans_lt (not_le.mp hshort)) ?_
    show p.fetch (ofNat p.bitmask.length).toNat = none
    unfold Program.fetch
    rw [hreach, getElem?_eq_none le_rfl]

end

variable {b : Bytes} {d : DecodedProgram}

theorem core_of_accepted (h : decodeProgram b = some (.ok d)) :
    ∃ p, decodeCorePart p = some (.ok d.core) := by
  by_cases hframe : FrameComplete b
  · rw [decodeProgram_complete hframe] at h
    obtain ⟨r, hr, hmap⟩ := map_eq_some_iff.mp h
    cases r with
    | error e => cases hmap
    | ok core =>
      cases hmap
      exact ⟨_, hr⟩
  · obtain ⟨e, he⟩ := decodeProgram_incomplete hframe
    rw [he] at h
    cases h

/-- The size of the code is a signed number in Go. -/
theorem length_code_lt_of_accepted {p : Bytes} {c : CorePart}
    (h : decodeCorePart p = some (.ok c)) : c.code.length < 2 ^ 63 := by
  obtain ⟨hp, hfits⟩ := fits_of_accepted h
  cases h.symm.trans (decodeCorePart_fits hp hfits)
  obtain ⟨hsmall, -⟩ := hfits
  dsimp only [corePart]
  rw [length_take]
  omega

/-- **The accepted programs that cannot crash the interpreter** are those whose operands have all
the bytes that are sliced, and whose bitmask is as long as the code or empty. -/
theorem crashFree_iff (h : decodeProgram b = some (.ok d)) :
    CrashFree d.core.program ↔ SafeProgram d.core.program := by
  obtain ⟨p, hp⟩ := core_of_accepted h
  have hlen : d.core.program.code.length < 2 ^ 64 :=
    (length_code_lt_of_accepted hp).trans (by decide)
  exact ⟨fun hfree => hfree.safe hlen, SafeProgram.crashFree⟩

/-- A program of one byte and its bit, in a frame without segments. -/
def oneByte (opcode : UInt8) : Bytes :=
  [0, 0, 0, 0, 0, 0, 0, 0, 0, 0, 0, 5, 0, 0, 0, 0, 0, 1, opcode, 1]

/-- What its core part is decoded to. -/
def oneBytePart (opcode : UInt8) : CorePart where
  jSize := 0
  z := 0
  J := []
  code := [opcode]
  K := [3]
  tableAt := 3
  codeAt := 3

/-- Traps have no operands. -/
theorem safeProgram_of_traps {p : VMProgram} (hops : ∀ pc, (p.instruction pc).opcode = 0)
    (hbits : p.code.length ≤ p.bitmask.length) : SafeProgram p := by
  refine ⟨fun pc _ _ => ?_, .inr hbits⟩
  unfold Instruction.OperandsInside
  rw [hops pc]
  trivial

theorem crashFree_trap : ∃ d, decodeProgram (oneByte 0) = some (.ok d) ∧ d.core = oneBytePart 0 ∧
      CrashFree d.core.program := by
  obtain ⟨d, hd, hcore⟩ : ∃ d, decodeProgram (oneByte 0) = some (.ok d) ∧
      d.core = oneBytePart 0 := ⟨_, rfl, by decide +kernel⟩
  refine ⟨d, hd, hcore, (crashFree_iff hd).mpr ?_⟩
  rw [hcore]
  exact safeProgram_of_traps (fun pc => by cases pc <;> rfl) (by decide)

/-- A store of an immediate without operands is accepted, and executing it crashes. -/
theorem bareStore_crashes :
    ∃ d, decodeProgram (oneByte 30) = some (.ok d) ∧ d.core = oneBytePart 30 ∧
      (jumper 0 0).step d.core.program.toProgram (handle d.core.program) idleHost = none ∧
      ¬CrashFree d.core.program := by
  obtain ⟨d, hd, hcore⟩ : ∃ d, decodeProgram (oneByte 30) = some (.ok d) ∧
      d.core = oneBytePart 30 := ⟨_, rfl, by decide +kernel⟩
  have hcrash : (jumper 0 0).step (oneBytePart 30).program.toProgram
      (handle (oneBytePart 30).program) idleHost = none := rfl
  rw [← hcore] at hcrash
  refine ⟨d, hd, hcore, hcrash, fun hfree => ?_⟩
  refine (hfree.step_jumper ?_ ?_ 0).1 hcrash
  all_goals
    rw [hcore]
    exact cons_ne_nil _ _

end JamDuna.Pvm
