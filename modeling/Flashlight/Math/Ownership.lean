/-
# Blocks of memory and their owners

A program allocates blocks, uses them through its variables, gives them back, and gives some of
them away. A variable keeps its pointer when the block behind it is gone, so the program goes wrong
when it uses or frees a block that is not live any more.

Which variables own a block can be followed without the blocks: an operation takes a set of owners
to another one, or it is refused. A program that is not refused runs, and at each point the live
blocks are those of the owners, one for each of them. What is left of the owners at the end is what
the program leaks.
-/

import Mathlib.Data.Finset.Card
import Mathlib.Data.Finset.Sigma
import Mathlib.Data.Finset.Sum
import Mathlib.Algebra.BigOperators.Group.Finset.Sigma

namespace Flashlight.Math

variable {V : Type*} [DecidableEq V]

/-- What a program does with the block in a variable. -/
inductive MemOp (V : Type*)
  /-- A block is allocated. -/
  | malloc (x : V)
  /-- The block is read or written. -/
  | use (x : V)
  /-- The pointer is copied from `y` to `x`, which owns the block from now on. -/
  | move (x y : V)
  /-- The block is freed. -/
  | free (x : V)
  /-- The block is left to somebody else, who may free it at any time. -/
  | give (x : V)
  deriving DecidableEq, Repr

/-- The blocks of a program. Each block gets a name that no block had before. -/
structure Mem (V : Type*) where
  /-- The name of the next block. -/
  next : ℕ
  /-- The blocks that the program allocated and neither freed nor gave away. -/
  live : Finset ℕ
  /-- The blocks that the program gave away. -/
  given : List ℕ
  /-- The pointers. -/
  var : V → Option ℕ

namespace Mem

/-- Nothing has been allocated. -/
def empty (V : Type*) : Mem V where
  next := 0
  live := ∅
  given := []
  var _ := none

variable (m : Mem V)

/-- The live block of a variable. -/
def block (x : V) : Option ℕ :=
  (m.var x).filter (· ∈ m.live)

/-- One operation. A variable without a live block must not be used, freed or given away. -/
def step (m : Mem V) : MemOp V → Option (Mem V)
  | .malloc x => some { m with
      next := m.next + 1
      live := insert m.next m.live
      var := Function.update m.var x (some m.next) }
  | .use x => (m.block x).map fun _ => m
  | .move x y => (m.block y).map fun b => { m with var := Function.update m.var x (some b) }
  | .free x => (m.block x).map fun b => { m with live := m.live.erase b }
  | .give x => (m.block x).map fun b =>
      { m with live := m.live.erase b, given := m.given ++ [b] }

/-- The operations of a program, one after the other. -/
def run (m : Mem V) : List (MemOp V) → Option (Mem V)
  | [] => some m
  | op :: ops => (m.step op).bind fun m => m.run ops

end Mem

/-! ## Owners -/

/-- The owners after an operation. An owner must not lose its block to another one. -/
def ownersStep (owners : Finset V) : MemOp V → Option (Finset V)
  | .malloc x => if x ∈ owners then none else some (insert x owners)
  | .use x => if x ∈ owners then some owners else none
  | .move x y => if y ∈ owners ∧ x ∉ owners then some (insert x (owners.erase y)) else none
  | .free x => if x ∈ owners then some (owners.erase x) else none
  | .give x => if x ∈ owners then some (owners.erase x) else none

/-- The operations that are not refused, one constructor for each. -/
inductive OwnersMove (owners : Finset V) : MemOp V → Finset V → Prop
  | malloc {x : V} (hx : x ∉ owners) : OwnersMove owners (.malloc x) (insert x owners)
  | use {x : V} (hx : x ∈ owners) : OwnersMove owners (.use x) owners
  | move {x y : V} (hy : y ∈ owners) (hx : x ∉ owners) :
      OwnersMove owners (.move x y) (insert x (owners.erase y))
  | free {x : V} (hx : x ∈ owners) : OwnersMove owners (.free x) (owners.erase x)
  | give {x : V} (hx : x ∈ owners) : OwnersMove owners (.give x) (owners.erase x)

theorem ownersStep_eq_some_iff {owners owners' : Finset V} {op : MemOp V} :
    ownersStep owners op = some owners' ↔ OwnersMove owners op owners' := by
  constructor
  · intro h
    cases op <;> simp only [ownersStep] at h <;> split at h <;> cases h
    · next hx => exact .malloc hx
    · next hx => exact .use hx
    · next hx => exact .move hx.1 hx.2
    · next hx => exact .free hx
    · next hx => exact .give hx
  · intro h
    cases h with
    | malloc hx => exact if_neg hx
    | use hx => exact if_pos hx
    | move hy hx => exact if_pos ⟨hy, hx⟩
    | free hx => exact if_pos hx
    | give hx => exact if_pos hx

/-- The owners after the operations of a program. -/
def ownersAfter (owners : Finset V) : List (MemOp V) → Option (Finset V)
  | [] => some owners
  | op :: ops => (ownersStep owners op).bind fun owners => ownersAfter owners ops

theorem ownersAfter_malloc {owners : Finset V} {x : V} (hx : x ∉ owners) (ops : List (MemOp V)) :
    ownersAfter owners (.malloc x :: ops) = ownersAfter (insert x owners) ops := by
  rw [ownersAfter, ownersStep, if_neg hx, Option.bind_some]

theorem ownersAfter_use {owners : Finset V} {x : V} (hx : x ∈ owners) (ops : List (MemOp V)) :
    ownersAfter owners (.use x :: ops) = ownersAfter owners ops := by
  rw [ownersAfter, ownersStep, if_pos hx, Option.bind_some]

theorem ownersAfter_free {owners : Finset V} {x : V} (hx : x ∈ owners) (ops : List (MemOp V)) :
    ownersAfter owners (.free x :: ops) = ownersAfter (owners.erase x) ops := by
  rw [ownersAfter, ownersStep, if_pos hx, Option.bind_some]

theorem ownersAfter_append (owners : Finset V) (ops more : List (MemOp V)) :
    ownersAfter owners (ops ++ more) =
      (ownersAfter owners ops).bind fun owners => ownersAfter owners more := by
  induction ops generalizing owners with
  | nil => rfl
  | cons op ops ih =>
      simp only [List.cons_append, ownersAfter, Option.bind_assoc, ih]

theorem ownersAfter_append_of {owners between : Finset V} {ops : List (MemOp V)}
    (h : ownersAfter owners ops = some between) (more : List (MemOp V)) :
    ownersAfter owners (ops ++ more) = ownersAfter between more := by
  rw [ownersAfter_append, h]
  rfl

/-- **Loop rule.** The operations of a loop, one body after the other. -/
theorem ownersAfter_flatMap_range {body : ℕ → List (MemOp V)} (owners : ℕ → Finset V) {n : ℕ}
    (hbody : ∀ k < n, ownersAfter (owners k) (body k) = some (owners (k + 1))) :
    ownersAfter (owners 0) ((List.range n).flatMap body) = some (owners n) := by
  induction n with
  | zero => rfl
  | succ n ih =>
      rw [List.range_succ, List.flatMap_append,
        ownersAfter_append_of (ih fun k hk => hbody k (hk.trans (Nat.lt_succ_self n))),
        List.flatMap_singleton]
      exact hbody n (Nat.lt_succ_self n)

/-- A program that is not refused is not refused before its end. -/
theorem exists_ownersAfter_take {owners owners' : Finset V} {ops : List (MemOp V)}
    (h : ownersAfter owners ops = some owners') (k : ℕ) :
    ∃ between, ownersAfter owners (ops.take k) = some between := by
  rw [← List.take_append_drop k ops, ownersAfter_append] at h
  obtain ⟨between, hbetween, -⟩ := Option.bind_eq_some_iff.mp h
  exact ⟨between, hbetween⟩

/-- The variable may get a block. -/
def Gains (ops : List (MemOp V)) (x : V) : Prop :=
  .malloc x ∈ ops ∨ ∃ y, .move x y ∈ ops

omit [DecidableEq V] in
@[simp]
theorem gains_append {ops more : List (MemOp V)} {x : V} :
    Gains (ops ++ more) x ↔ Gains ops x ∨ Gains more x := by
  simp only [Gains, List.mem_append, exists_or]
  tauto

omit [DecidableEq V] in
theorem gains_flatMap {α : Type*} {f : α → List (MemOp V)} {xs : List α} {x : V}
    (h : Gains (xs.flatMap f) x) : ∃ a ∈ xs, Gains (f a) x := by
  rcases h with h | ⟨y, h⟩
  · obtain ⟨a, ha, h⟩ := List.mem_flatMap.mp h
    exact ⟨a, ha, Or.inl h⟩
  · obtain ⟨a, ha, h⟩ := List.mem_flatMap.mp h
    exact ⟨a, ha, Or.inr ⟨y, h⟩⟩

omit [DecidableEq V] in
theorem gains_mallocs {xs : List V} {x : V} : Gains (xs.map .malloc) x ↔ x ∈ xs := by
  simp [Gains]

/-- What owns a block afterwards owned one before, or may have got it. -/
theorem mem_or_gains_of_ownersAfter {owners owners' : Finset V} {ops : List (MemOp V)} {x : V}
    (h : ownersAfter owners ops = some owners') (hx : x ∈ owners') : x ∈ owners ∨ Gains ops x := by
  induction ops generalizing owners with
  | nil =>
      obtain rfl := Option.some.inj h
      exact Or.inl hx
  | cons op ops ih =>
      obtain ⟨between, hop, hrest⟩ := Option.bind_eq_some_iff.mp h
      rcases ih hrest with hbetween | hgains
      · cases ownersStep_eq_some_iff.mp hop with
        | @malloc y hy =>
            rcases Finset.mem_insert.mp hbetween with rfl | hold
            · exact Or.inr (Or.inl List.mem_cons_self)
            · exact Or.inl hold
        | use hy => exact Or.inl hbetween
        | @move y z hz hy =>
            rcases Finset.mem_insert.mp hbetween with rfl | hold
            · exact Or.inr (Or.inr ⟨z, List.mem_cons_self⟩)
            · exact Or.inl (Finset.mem_of_mem_erase hold)
        | free hy => exact Or.inl (Finset.mem_of_mem_erase hbetween)
        | give hy => exact Or.inl (Finset.mem_of_mem_erase hbetween)
      · refine Or.inr ?_
        rcases hgains with hmem | ⟨y, hmem⟩
        · exact Or.inl (List.mem_cons_of_mem _ hmem)
        · exact Or.inr ⟨y, List.mem_cons_of_mem _ hmem⟩

/-- How many blocks the operations give away. -/
def giveCount (ops : List (MemOp V)) : ℕ :=
  ops.countP fun
    | .give _ => true
    | _ => false

omit [DecidableEq V] in
theorem giveCount_append (ops more : List (MemOp V)) :
    giveCount (ops ++ more) = giveCount ops + giveCount more :=
  List.countP_append

/-- The live blocks are those of the owners, one for each of them. -/
structure Mem.Owned (m : Mem V) (owners : Finset V) : Prop where
  holds : ∀ x ∈ owners, ∃ b ∈ m.live, m.var x = some b
  apart : ∀ x ∈ owners, ∀ y ∈ owners, m.var x = m.var y → x = y
  owned : ∀ b ∈ m.live, ∃ x ∈ owners, m.var x = some b
  /-- What was given away is not live, and was given away once. -/
  given : m.given.Nodup ∧ ∀ b ∈ m.given, b ∉ m.live
  fresh : ∀ b, b ∈ m.live ∨ b ∈ m.given → b < m.next

namespace Mem.Owned

variable {m : Mem V} {owners : Finset V} {x : V}

theorem empty (V : Type*) [DecidableEq V] : (Mem.empty V).Owned ∅ where
  holds := by simp
  apart := by simp
  owned := by simp [Mem.empty]
  given := by simp [Mem.empty]
  fresh := by simp [Mem.empty]

omit [DecidableEq V] in
theorem block_eq (h : m.Owned owners) (hx : x ∈ owners) :
    ∃ b ∈ m.live, m.var x = some b ∧ m.block x = some b := by
  obtain ⟨b, hb, hvar⟩ := h.holds x hx
  exact ⟨b, hb, hvar, by simp [block, hvar, hb]⟩

/-- A pointer that no owner has makes another owner. -/
theorem apart_update {var : V → Option ℕ} (hx : x ∉ owners)
    (hapart : ∀ y ∈ owners, ∀ z ∈ owners, var y = var z → y = z) {b : ℕ}
    (hother : ∀ y ∈ owners, var y ≠ some b) :
    ∀ y ∈ insert x owners, ∀ z ∈ insert x owners,
      Function.update var x (some b) y = Function.update var x (some b) z → y = z := by
  have hne : ∀ y ∈ owners, Function.update var x (some b) y = var y := fun y hy =>
    Function.update_of_ne (by rintro rfl; exact hx hy) _ _
  intro y hy z hz heq
  rcases Finset.mem_insert.mp hy with rfl | hyold
  · rcases Finset.mem_insert.mp hz with rfl | hzold
    · rfl
    · rw [Function.update_self, hne z hzold] at heq
      exact absurd heq.symm (hother z hzold)
  · rcases Finset.mem_insert.mp hz with rfl | hzold
    · rw [Function.update_self, hne y hyold] at heq
      exact absurd heq (hother y hyold)
    · rw [hne y hyold, hne z hzold] at heq
      exact hapart y hyold z hzold heq

/-- A new block has a new owner. -/
theorem malloc (h : m.Owned owners) (hx : x ∉ owners) :
    ∃ m', m.step (.malloc x) = some m' ∧ m'.Owned (insert x owners) ∧ m'.given = m.given := by
  have hnew : m.next ∉ m.live := fun hmem => lt_irrefl _ (h.fresh _ (Or.inl hmem))
  have hne : ∀ y ∈ owners, y ≠ x := fun y hy heq => hx (heq ▸ hy)
  refine ⟨_, rfl, ⟨fun y hy => ?_, fun y hy z hz heq => ?_, fun b hb => ?_, ?_, ?_⟩, rfl⟩
  · rcases Finset.mem_insert.mp hy with rfl | hy
    · exact ⟨m.next, by simp, by simp⟩
    · obtain ⟨b, hb, hvar⟩ := h.holds y hy
      exact ⟨b, Finset.mem_insert_of_mem hb, by simpa [hne y hy] using hvar⟩
  · refine apart_update hx h.apart (fun u hu heq => ?_) y hy z hz heq
    obtain ⟨b, hb, hvar⟩ := h.holds u hu
    rw [hvar] at heq
    exact hnew (Option.some.inj heq ▸ hb)
  · rcases Finset.mem_insert.mp hb with rfl | hb
    · exact ⟨x, Finset.mem_insert_self _ _, by simp⟩
    · obtain ⟨y, hy, hvar⟩ := h.owned b hb
      exact ⟨y, Finset.mem_insert_of_mem hy, by simpa [hne y hy] using hvar⟩
  · refine ⟨h.given.1, fun b hb hlive => ?_⟩
    rcases Finset.mem_insert.mp hlive with rfl | hlive
    · exact lt_irrefl _ (h.fresh _ (Or.inr hb))
    · exact h.given.2 b hb hlive
  · rintro b (hb | hb)
    · rcases Finset.mem_insert.mp hb with rfl | hb
      · exact Nat.lt_succ_self _
      · exact (h.fresh b (Or.inl hb)).trans (Nat.lt_succ_self _)
    · exact (h.fresh b (Or.inr hb)).trans (Nat.lt_succ_self _)

/-- The block of an owner that gives it up. -/
theorem erase (h : m.Owned owners) (hx : x ∈ owners) {b : ℕ} (hvar : m.var x = some b)
    {given : List ℕ} (hgiven : given.Nodup ∧ ∀ c ∈ given, c ∉ m.live.erase b)
    (hfresh : ∀ c ∈ given, c < m.next) :
    ({ m with live := m.live.erase b, given := given } : Mem V).Owned (owners.erase x) where
  holds y hy := by
    obtain ⟨hne, hy⟩ := Finset.mem_erase.mp hy
    obtain ⟨c, hc, hvar'⟩ := h.holds y hy
    refine ⟨c, Finset.mem_erase.mpr ⟨?_, hc⟩, hvar'⟩
    rintro rfl
    exact hne (h.apart y hy x hx (hvar'.trans hvar.symm))
  apart y hy z hz heq :=
    h.apart y (Finset.mem_of_mem_erase hy) z (Finset.mem_of_mem_erase hz) heq
  owned c hc := by
    obtain ⟨hne, hc⟩ := Finset.mem_erase.mp hc
    obtain ⟨y, hy, hvar'⟩ := h.owned c hc
    refine ⟨y, Finset.mem_erase.mpr ⟨?_, hy⟩, hvar'⟩
    rintro rfl
    exact hne (Option.some.inj (hvar'.symm.trans hvar))
  given := hgiven
  fresh c hc := by
    rcases hc with hc | hc
    · exact h.fresh c (Or.inl (Finset.mem_of_mem_erase hc))
    · exact hfresh c hc

theorem free (h : m.Owned owners) (hx : x ∈ owners) :
    ∃ m', m.step (.free x) = some m' ∧ m'.Owned (owners.erase x) ∧ m'.given = m.given := by
  obtain ⟨b, hb, hvar, hblock⟩ := h.block_eq hx
  refine ⟨{ m with live := m.live.erase b }, by simp [step, hblock], h.erase hx hvar ?_ ?_, rfl⟩
  · exact ⟨h.given.1, fun c hc hlive => h.given.2 c hc (Finset.mem_of_mem_erase hlive)⟩
  · exact fun c hc => h.fresh c (Or.inr hc)

theorem give (h : m.Owned owners) (hx : x ∈ owners) :
    ∃ m', m.step (.give x) = some m' ∧ m'.Owned (owners.erase x) ∧
      m'.given.length = m.given.length + 1 := by
  obtain ⟨b, hb, hvar, hblock⟩ := h.block_eq hx
  refine ⟨{ m with live := m.live.erase b, given := m.given ++ [b] }, by simp [step, hblock],
    h.erase hx hvar ⟨?_, ?_⟩ ?_, by simp⟩
  · refine List.nodup_append.mpr ⟨h.given.1, List.nodup_singleton b, fun c hc d hd heq => ?_⟩
    rw [List.mem_singleton.mp hd] at heq
    exact h.given.2 c hc (heq ▸ hb)
  · intro c hc hlive
    rcases List.mem_append.mp hc with hc | hc
    · exact h.given.2 c hc (Finset.mem_of_mem_erase hlive)
    · exact (Finset.mem_erase.mp hlive).1 (List.mem_singleton.mp hc)
  · intro c hc
    rcases List.mem_append.mp hc with hc | hc
    · exact h.fresh c (Or.inr hc)
    · rw [List.mem_singleton.mp hc]
      exact h.fresh b (Or.inl hb)

theorem move (h : m.Owned owners) {y : V} (hy : y ∈ owners) (hx : x ∉ owners) :
    ∃ m', m.step (.move x y) = some m' ∧ m'.Owned (insert x (owners.erase y)) ∧
      m'.given = m.given := by
  obtain ⟨b, hb, hvar, hblock⟩ := h.block_eq hy
  have hne : ∀ z ∈ owners, z ≠ x := fun z hz heq => hx (heq ▸ hz)
  refine ⟨{ m with var := Function.update m.var x (some b) }, by simp [step, hblock],
    ⟨fun z hz => ?_, fun z hz u hu heq => ?_, fun c hc => ?_, h.given, h.fresh⟩, rfl⟩
  · rcases Finset.mem_insert.mp hz with rfl | hz
    · exact ⟨b, hb, by simp⟩
    · have hz := Finset.mem_of_mem_erase hz
      obtain ⟨c, hc, hvar'⟩ := h.holds z hz
      exact ⟨c, hc, by simpa [hne z hz] using hvar'⟩
  · refine apart_update (fun hmem => hx (Finset.mem_of_mem_erase hmem)) (fun v hv w hw =>
      h.apart v (Finset.mem_of_mem_erase hv) w (Finset.mem_of_mem_erase hw)) (fun v hv heq => ?_)
      z hz u hu heq
    obtain ⟨hvy, hv⟩ := Finset.mem_erase.mp hv
    exact hvy (h.apart v hv y hy (heq.trans hvar.symm))
  · obtain ⟨z, hz, hvar'⟩ := h.owned c hc
    by_cases hzy : z = y
    · refine ⟨x, Finset.mem_insert_self _ _, ?_⟩
      rw [hzy, hvar] at hvar'
      simpa using hvar'
    · exact ⟨z, Finset.mem_insert_of_mem (Finset.mem_erase.mpr ⟨hzy, hz⟩),
        by simpa [hne z hz] using hvar'⟩

/-- One operation of a program that is not refused. -/
theorem step (h : m.Owned owners) {op : MemOp V} {owners' : Finset V}
    (hop : ownersStep owners op = some owners') :
    ∃ m', m.step op = some m' ∧ m'.Owned owners' ∧
      m'.given.length = m.given.length + giveCount [op] := by
  cases ownersStep_eq_some_iff.mp hop with
  | malloc hx =>
      obtain ⟨m', hstep, hm', hgiven⟩ := h.malloc hx
      exact ⟨m', hstep, hm', by simp [hgiven, giveCount]⟩
  | use hx =>
      obtain ⟨b, -, -, hblock⟩ := h.block_eq hx
      exact ⟨m, by simp [Mem.step, hblock], h, by simp [giveCount]⟩
  | move hy hx =>
      obtain ⟨m', hstep, hm', hgiven⟩ := h.move hy hx
      exact ⟨m', hstep, hm', by simp [hgiven, giveCount]⟩
  | free hx =>
      obtain ⟨m', hstep, hm', hgiven⟩ := h.free hx
      exact ⟨m', hstep, hm', by simp [hgiven, giveCount]⟩
  | give hx =>
      obtain ⟨m', hstep, hm', hgiven⟩ := h.give hx
      exact ⟨m', hstep, hm', by simp [hgiven, giveCount]⟩

/-- **Programs that are not refused run**, and the owners are what their discipline says. -/
theorem run (h : m.Owned owners) {ops : List (MemOp V)} {owners' : Finset V}
    (hops : ownersAfter owners ops = some owners') :
    ∃ m', m.run ops = some m' ∧ m'.Owned owners' ∧
      m'.given.length = m.given.length + giveCount ops := by
  induction ops generalizing m owners with
  | nil =>
      obtain rfl := Option.some.inj hops
      exact ⟨m, rfl, h, by simp [giveCount]⟩
  | cons op ops ih =>
      obtain ⟨between, hop, hrest⟩ := Option.bind_eq_some_iff.mp hops
      obtain ⟨m₁, hstep, hm₁, hgiven₁⟩ := h.step hop
      obtain ⟨m₂, hrun, hm₂, hgiven₂⟩ := ih hm₁ hrest
      refine ⟨m₂, by simp [Mem.run, hstep, hrun], hm₂, ?_⟩
      rw [hgiven₂, hgiven₁, Nat.add_assoc, ← giveCount_append, List.singleton_append]

omit [DecidableEq V] in
/-- There are as many live blocks as owners. -/
theorem card_live (h : m.Owned owners) : m.live.card = owners.card := by
  refine (Finset.card_bij (fun x hx => (m.var x).getD 0) (fun x hx => ?_) (fun x hx y hy heq => ?_)
    fun b hb => ?_).symm
  · obtain ⟨b, hb, hvar⟩ := h.holds x hx
    simpa [hvar] using hb
  · obtain ⟨b, -, hvar⟩ := h.holds x hx
    obtain ⟨c, -, hvar'⟩ := h.holds y hy
    simp only [hvar, hvar', Option.getD_some] at heq
    exact h.apart x hx y hy (by rw [hvar, hvar', heq])
  · obtain ⟨x, hx, hvar⟩ := h.owned b hb
    exact ⟨x, hx, by simp [hvar]⟩

end Mem.Owned

/-! ## Several programs in one memory -/

section

variable {M V W : Type*} [DecidableEq M] [DecidableEq V] [DecidableEq W]

/-- The same operation on other variables. -/
def MemOp.map (f : V → W) : MemOp V → MemOp W
  | .malloc x => .malloc (f x)
  | .use x => .use (f x)
  | .move x y => .move (f x) (f y)
  | .free x => .free (f x)
  | .give x => .give (f x)

omit [DecidableEq V] [DecidableEq W] in
/-- Renamed variables get what the variables got. -/
theorem gains_of_map {f : V → W} {ops : List (MemOp V)} {y : W}
    (h : Gains (ops.map (MemOp.map f)) y) : ∃ x, f x = y ∧ Gains ops x := by
  rcases h with h | ⟨z, h⟩
  · obtain ⟨op, hop, heq⟩ := List.mem_map.mp h
    cases op <;> cases heq
    exact ⟨_, rfl, Or.inl hop⟩
  · obtain ⟨op, hop, heq⟩ := List.mem_map.mp h
    cases op <;> cases heq
    exact ⟨_, rfl, Or.inr ⟨_, hop⟩⟩


omit [DecidableEq V] [DecidableEq W] in
@[simp] theorem giveCount_map (f : V → W) (ops : List (MemOp V)) :
    giveCount (ops.map (MemOp.map f)) = giveCount ops := by
  induction ops with
  | nil => rfl
  | cons op ops ih =>
      rw [List.map_cons, ← List.singleton_append, giveCount_append, ih,
        ← List.singleton_append (x := op), giveCount_append]
      cases op <;> rfl

theorem ownersStep_map (f : V ↪ W) {rest : Finset W} (hrest : ∀ x, f x ∉ rest) {op : MemOp V}
    {owners owners' : Finset V} (h : ownersStep owners op = some owners') :
    ownersStep (owners.map f ∪ rest) (op.map f) = some (owners'.map f ∪ rest) := by
  have hmem : ∀ x, f x ∈ owners.map f ∪ rest ↔ x ∈ owners := by
    intro x
    rw [Finset.mem_union, Finset.mem_map' f, or_iff_left (hrest x)]
  have herase : ∀ x, (owners.map f ∪ rest).erase (f x) = (owners.erase x).map f ∪ rest := by
    intro x
    rw [Finset.erase_union_distrib, ← Finset.map_erase, Finset.erase_eq_of_notMem (hrest x)]
  have hinsert : ∀ (owners : Finset V) x,
      insert (f x) (owners.map f ∪ rest) = (insert x owners).map f ∪ rest := by
    intro owners x
    rw [Finset.map_insert, Finset.insert_union]
  rw [ownersStep_eq_some_iff] at h ⊢
  cases h with
  | malloc hx => exact hinsert _ _ ▸ .malloc fun hmem' => hx ((hmem _).mp hmem')
  | use hx => exact .use ((hmem _).mpr hx)
  | move hy hx =>
      rw [← hinsert, ← herase]
      exact .move ((hmem _).mpr hy) fun hmem' => hx ((hmem _).mp hmem')
  | free hx => exact herase _ ▸ .free ((hmem _).mpr hx)
  | give hx => exact herase _ ▸ .give ((hmem _).mpr hx)

/-- **Frame rule.** Owners that a program does not name stay owners. -/
theorem ownersAfter_map (f : V ↪ W) {rest : Finset W} (hrest : ∀ x, f x ∉ rest)
    {ops : List (MemOp V)} {owners owners' : Finset V}
    (h : ownersAfter owners ops = some owners') :
    ownersAfter (owners.map f ∪ rest) (ops.map (MemOp.map f)) = some (owners'.map f ∪ rest) := by
  induction ops generalizing owners with
  | nil =>
      obtain rfl := Option.some.inj h
      rfl
  | cons op ops ih =>
      obtain ⟨between, hop, hops⟩ := Option.bind_eq_some_iff.mp h
      rw [List.map_cons, ownersAfter, ownersStep_map f hrest hop]
      exact ih hops

/-- One of two programs runs. -/
theorem ownersAfter_disjSum_left {left left' : Finset V} {right : Finset W} {ops : List (MemOp V)}
    (h : ownersAfter left ops = some left') :
    ownersAfter (left.disjSum right) (ops.map (MemOp.map Sum.inl)) =
      some (left'.disjSum right) := by
  have hsplit : ∀ left : Finset V, left.disjSum right =
      left.map ⟨Sum.inl, Sum.inl_injective⟩ ∪ (∅ : Finset V).disjSum right := by
    intro left
    ext (x | x) <;> simp
  rw [hsplit left, hsplit left']
  exact ownersAfter_map ⟨Sum.inl, Sum.inl_injective⟩ (by simp) h

theorem ownersAfter_disjSum_right {left : Finset V} {right right' : Finset W}
    {ops : List (MemOp W)} (h : ownersAfter right ops = some right') :
    ownersAfter (left.disjSum right) (ops.map (MemOp.map Sum.inr)) =
      some (left.disjSum right') := by
  have hsplit : ∀ right : Finset W, left.disjSum right =
      right.map ⟨Sum.inr, Sum.inr_injective⟩ ∪ left.disjSum (∅ : Finset W) := by
    intro right
    ext (x | x) <;> simp
  rw [hsplit right, hsplit right']
  exact ownersAfter_map ⟨Sum.inr, Sum.inr_injective⟩ (by simp) h

/-- The owners of a main program and those of its first `count` threads. -/
def together (main : Finset M) (count : ℕ) (thread : ℕ → Finset V) :
    Finset (M ⊕ (_ : ℕ) × V) :=
  main.disjSum ((Finset.range count).sigma thread)

omit [DecidableEq M] [DecidableEq V] in
theorem card_together (main : Finset M) (count : ℕ) (thread : ℕ → Finset V) :
    (together main count thread).card = main.card + ∑ t ∈ Finset.range count, (thread t).card := by
  rw [together, Finset.card_disjSum, Finset.card_sigma]

omit [DecidableEq M] [DecidableEq V] in
/-- A thread that owns nothing. -/
theorem together_succ (main : Finset M) {count : ℕ} {thread : ℕ → Finset V}
    (hnew : thread count = ∅) : together main (count + 1) thread = together main count thread := by
  ext (x | ⟨t, x⟩)
  · simp [together]
  · simp only [together, Finset.inr_mem_disjSum, Finset.mem_sigma, Finset.mem_range]
    constructor
    · rintro ⟨ht, hx⟩
      rcases Nat.lt_succ_iff_lt_or_eq.mp ht with hlt | rfl
      · exact ⟨hlt, hx⟩
      · rw [hnew] at hx
        cases hx
    · exact fun ⟨ht, hx⟩ => ⟨ht.trans (Nat.lt_succ_self _), hx⟩

omit [DecidableEq M] [DecidableEq V] in
theorem together_congr (main : Finset M) {count : ℕ} {thread thread' : ℕ → Finset V}
    (h : ∀ t < count, thread t = thread' t) :
    together main count thread = together main count thread' := by
  ext (x | ⟨t, x⟩)
  · simp [together]
  · simp only [together, Finset.inr_mem_disjSum, Finset.mem_sigma, Finset.mem_range]
    exact and_congr_right fun ht => by rw [h t ht]

/-- What the main program owns, beside the threads. -/
theorem mem_together_iff {main : Finset M} {count : ℕ} {thread : ℕ → Finset V}
    {x : M ⊕ (_ : ℕ) × V} :
    x ∈ together main count thread ↔ x ∈ together ∅ count thread ∨ x ∈ main.image .inl := by
  rcases x with x | ⟨t, x⟩ <;> simp [together]

/-- What a thread gets that owned nothing. -/
theorem mem_together_update {main : Finset M} {count t : ℕ} {thread : ℕ → Finset V}
    (ht : t < count) (hnone : thread t = ∅) (owned : Finset V) {x : M ⊕ (_ : ℕ) × V} :
    x ∈ together main count (Function.update thread t owned) ↔
      x ∈ together main count thread ∨ x ∈ owned.image fun x => .inr ⟨t, x⟩ := by
  rcases x with x | ⟨u, x⟩
  · simp [together]
  · by_cases hu : u = t
    · subst hu
      simp [together, ht, hnone]
    · simp [together, hu, Ne.symm hu]

/-- The main program runs. -/
theorem ownersAfter_together_main {main main' : Finset M} {count : ℕ} {thread : ℕ → Finset V}
    {ops : List (MemOp M)} (h : ownersAfter main ops = some main') :
    ownersAfter (together main count thread) (ops.map (MemOp.map Sum.inl)) =
      some (together main' count thread) :=
  ownersAfter_disjSum_left h

/-- A thread runs. -/
theorem ownersAfter_together_thread {main : Finset M} {count : ℕ} {thread : ℕ → Finset V} {t : ℕ}
    (ht : t < count) {ops : List (MemOp V)} {owners : Finset V}
    (h : ownersAfter (thread t) ops = some owners) :
    ownersAfter (together main count thread) (ops.map (MemOp.map fun x => Sum.inr ⟨t, x⟩)) =
      some (together main count (Function.update thread t owners)) := by
  have hinj : Function.Injective fun x : V => (Sum.inr ⟨t, x⟩ : M ⊕ (_ : ℕ) × V) :=
    fun x y heq => by simpa using heq
  have hsplit : ∀ owners : Finset V, together main count (Function.update thread t owners) =
      owners.map ⟨_, hinj⟩ ∪ together main count (Function.update thread t ∅) := by
    intro owners
    ext (x | ⟨u, x⟩)
    · simp [together]
    · by_cases hu : u = t
      · subst hu
        simp [together, ht]
      · simp [together, hu, Ne.symm hu]
  have hself := hsplit (thread t)
  rw [Function.update_eq_self] at hself
  rw [hself, hsplit owners]
  exact ownersAfter_map ⟨_, hinj⟩ (by simp [together]) h

/-- Uses of blocks that are there. -/
theorem ownersAfter_uses {owners : Finset V} {xs : List V} (h : ∀ x ∈ xs, x ∈ owners) :
    ownersAfter owners (xs.map .use) = some owners := by
  induction xs with
  | nil => rfl
  | cons x xs ih =>
      rw [List.map_cons, ownersAfter_use (h x List.mem_cons_self)]
      exact ih fun y hy => h y (List.mem_cons_of_mem _ hy)

omit [DecidableEq V] in
theorem giveCount_uses (xs : List V) : giveCount (xs.map .use) = 0 := by
  simp [giveCount]

/-- Allocations of blocks that are not there. -/
theorem ownersAfter_mallocs {owners : Finset V} {xs : List V} (hxs : xs.Nodup)
    (hfresh : ∀ x ∈ xs, x ∉ owners) :
    ownersAfter owners (xs.map .malloc) = some (owners ∪ xs.toFinset) := by
  induction xs generalizing owners with
  | nil => simp [ownersAfter]
  | cons x xs ih =>
      obtain ⟨hx, hxs⟩ := List.nodup_cons.mp hxs
      rw [List.map_cons, ownersAfter_malloc (hfresh x List.mem_cons_self), ih hxs,
        List.toFinset_cons, Finset.union_insert, Finset.insert_union]
      intro y hy hmem
      rcases Finset.mem_insert.mp hmem with rfl | hold
      · exact hx hy
      · exact hfresh y (List.mem_cons_of_mem _ hy) hold

/-- The first of such allocations. -/
theorem ownersAfter_take_mallocs {owners : Finset V} {xs : List V} (hxs : xs.Nodup)
    (hfresh : ∀ x ∈ xs, x ∉ owners) (n : ℕ) :
    ownersAfter owners ((xs.take n).map .malloc) = some (owners ∪ (xs.take n).toFinset) :=
  ownersAfter_mallocs ((List.take_sublist n xs).nodup hxs) fun x hx =>
    hfresh x (List.mem_of_mem_take hx)

omit [DecidableEq V] in
theorem giveCount_mallocs (xs : List V) : giveCount (xs.map .malloc) = 0 := by
  simp [giveCount]

end

end Flashlight.Math
