import Xv6.Disk.Block

/-!
# The table of processors

`mpinit` walks over the configuration table that `mpconfig` finds.  An entry of unknown type makes
it leave the `switch`, not the loop, so that it looks at the same entry again.  Addresses are
numbers.
-/

namespace Xv6.Mp

variable {mem : ℕ → Byte}

def NCPU : ℕ := 8

def short (mem : ℕ → Byte) (a : ℕ) : ℕ := (mem a).toNat + 2 ^ 8 * (mem (a + 1)).toNat

/-- A pointer. -/
def long (mem : ℕ → Byte) (a : ℕ) : ℕ := short mem a + 2 ^ 16 * short mem (a + 2)

/-- The first four bytes, for `memcmp`. -/
def signature (mem : ℕ → Byte) (a : ℕ) : List Byte := [mem a, mem (a + 1), mem (a + 2), mem (a + 3)]

def sum (mem : ℕ → Byte) (addr len : ℕ) : Byte :=
  ((List.range len).map fun i => mem (addr + i)).sum

/-- Look for an MP structure in the `len` bytes at `a`. -/
def mpsearch1 (mem : ℕ → Byte) (a len : ℕ) : Option ℕ :=
  ((List.range (len / 16)).map fun i => a + 16 * i).find? fun p =>
    signature mem p = [0x5f, 0x4d, 0x50, 0x5f] ∧ sum mem p 16 = 0

def mpsearch (mem : ℕ → Byte) : Option ℕ :=
  let p := short mem 0x40e * 16
  let found := if p ≠ 0 then mpsearch1 mem p 1024
    else mpsearch1 mem ((short mem 0x413 * 1024 + 2 ^ 32 - 1024) % 2 ^ 32) 1024
  found <|> mpsearch1 mem 0xf0000 0x10000

def mpconfig (mem : ℕ → Byte) : Option ℕ := do
  let mp ← mpsearch mem
  let conf := long mem (mp + 4)
  if conf = 0 then none
  else if signature mem conf ≠ [0x50, 0x43, 0x4d, 0x50] then none
  else if mem (conf + 6) ≠ 1 ∧ mem (conf + 6) ≠ 4 then none
  else if sum mem conf (short mem (conf + 4)) ≠ 0 then none
  else some conf

/-- The variables of `mpinit`, and what it sets. -/
structure Walk where
  lapic : ℕ
  p : ℕ
  ismp : Bool
  ncpu : ℕ
  apicid : ℕ → Byte
  ioapicid : Byte

/-- One turn of the loop up to `e`; `none` is its end. -/
def turn (mem : ℕ → Byte) (e : ℕ) (s : Walk) : Option Walk :=
  if s.p < e then
    if mem s.p = 0 then
      if s.ncpu < NCPU then
        some { s with
          apicid := Function.update s.apicid s.ncpu (mem (s.p + 1))
          ncpu := s.ncpu + 1
          p := s.p + 20 }
      else some { s with p := s.p + 20 }
    else if mem s.p = 2 then some { s with ioapicid := mem (s.p + 1), p := s.p + 8 }
    else if mem s.p = 1 ∨ mem s.p = 3 ∨ mem s.p = 4 then some { s with p := s.p + 8 }
    else some { s with ismp := false }
  else none

/-- The loop; `none` if it has not ended after `fuel` turns. -/
def walk (mem : ℕ → Byte) (e : ℕ) : ℕ → Walk → Option Walk
  | 0, _ => none
  | fuel + 1, s =>
      match turn mem e s with
      | none => some s
      | some s' => walk mem e fuel s'

def tableEnd (mem : ℕ → Byte) (conf : ℕ) : ℕ := conf + short mem (conf + 4)

def Walk.start (mem : ℕ → Byte) (conf : ℕ) : Walk :=
  ⟨long mem (conf + 36), conf + 44, true, 0, fun _ => 0, 0⟩

/-- `mpinit`, up to the interrupt mode of the chip set; an error is a panic. -/
def mpinit (mem : ℕ → Byte) (fuel : ℕ) : Option (Except String Walk) :=
  match mpconfig mem with
  | none => some (.error "Expect to run on an SMP")
  | some conf =>
      (walk mem (tableEnd mem conf) fuel (.start mem conf)).map fun s =>
        if s.ismp then .ok s else .error "Didn't find a suitable machine"

/-! ## The walk -/

variable {e fuel : ℕ} {s s' r : Walk}

/-- The walk goes from `s` to `s'`. -/
def Leads (mem : ℕ → Byte) (e : ℕ) : Walk → Walk → Prop :=
  Relation.ReflTransGen fun s s' => turn mem e s = some s'

def Unknown (mem : ℕ → Byte) (e : ℕ) (s : Walk) : Prop := s.p < e ∧ 4 < (mem s.p).toNat

instance (e : ℕ) (s : Walk) : Decidable (Unknown mem e s) := inferInstanceAs (Decidable (_ ∧ _))

theorem turn_cases (next : turn mem e s = some s') :
    Unknown mem e s ∧ s' = { s with ismp := false } ∨
      ¬ Unknown mem e s ∧ s.p < e ∧ s.p < s'.p ∧ s'.ismp = s.ismp ∧
        (s.ncpu ≤ NCPU → s'.ncpu ≤ NCPU) := by
  have types (b : Byte) : 4 < b.toNat ↔ ¬ (b = 0 ∨ b = 2 ∨ b = 1 ∨ b = 3 ∨ b = 4) := by
    revert b
    decide
  simp only [Unknown, types]
  unfold turn at next
  split at next
  next inside =>
    split_ifs at next with proc room ioapic other <;> cases next
    · exact .inr ⟨by simp [proc], inside, by simp, rfl, fun _ => room⟩
    · exact .inr ⟨by simp [proc], inside, by simp, rfl, id⟩
    · exact .inr ⟨by simp [ioapic], inside, by simp, rfl, id⟩
    · refine .inr ⟨fun unknown => unknown.2 ?_, inside, by simp, rfl, id⟩
      exact .inr (.inr other)
    · refine .inl ⟨⟨inside, ?_⟩, rfl⟩
      exact not_or.2 ⟨proc, not_or.2 ⟨ioapic, other⟩⟩
  · cases next

theorem walk_unknown (bad : Unknown mem e s) (fuel : ℕ) : walk mem e fuel s = none := by
  induction fuel generalizing s with
  | zero => rfl
  | succ fuel ih =>
    rw [walk]
    split
    next ended =>
      have inside := bad.1
      unfold turn at ended
      split_ifs at ended
    next s' next =>
      rcases turn_cases next with ⟨-, rfl⟩ | ⟨known, -⟩
      · exact ih bad
      · exact absurd bad known

theorem walk_ends_iff (e : ℕ) (s : Walk) : (∃ fuel, walk mem e fuel s ≠ none) ↔
    ∀ s', Leads mem e s s' → ¬ Unknown mem e s' := by
  constructor
  · rintro ⟨fuel, ends⟩ s' leads
    induction leads using Relation.ReflTransGen.head_induction_on generalizing fuel with
    | refl => exact fun bad => ends (walk_unknown bad fuel)
    | head next _ ih =>
      cases fuel with
      | zero => exact absurd rfl ends
      | succ fuel =>
        rw [walk, next] at ends
        exact ih fuel ends
  intro known
  -- the entries that are left get fewer
  induction left : e - s.p using Nat.strong_induction_on generalizing s with
  | _ n ih =>
    cases next : turn mem e s with
    | none => exact ⟨1, by simp [walk, next]⟩
    | some s' =>
      rcases turn_cases next with ⟨bad, -⟩ | ⟨-, inside, lt, -⟩
      · exact absurd bad (known s .refl)
      obtain ⟨fuel, ends⟩ := ih (e - s'.p) (by omega) s'
        (fun s'' leads => known s'' (.head next leads)) rfl
      exact ⟨fuel + 1, by rwa [walk, next]⟩

theorem ismp_walk (ends : walk mem e fuel s = some r) : r.ismp = s.ismp := by
  induction fuel generalizing s with
  | zero => cases ends
  | succ fuel ih =>
    rw [walk] at ends
    split at ends
    · cases ends
      rfl
    next s' next =>
      rcases turn_cases next with ⟨bad, rfl⟩ | ⟨-, -, -, same, -⟩
      · rw [walk_unknown (s := { s with ismp := false }) bad] at ends
        cases ends
      · rw [ih ends, same]

/-- For every table that `mpconfig` accepts, `mpinit` ends, without a panic and with at most `NCPU`
processors, just if the walk comes to no entry of unknown type. -/
theorem mpinit_ends_iff {conf : ℕ} (accepted : mpconfig mem = some conf) :
    ((∃ fuel, mpinit mem fuel ≠ none) ↔
      ∀ s, Leads mem (tableEnd mem conf) (.start mem conf) s → ¬ Unknown mem (tableEnd mem conf) s) ∧
    (∀ fuel r, mpinit mem fuel = some r → ∃ s, r = .ok s) ∧
    ∀ s, Leads mem (tableEnd mem conf) (.start mem conf) s → s.ncpu ≤ NCPU := by
  refine ⟨?_, fun fuel r ends => ?_, fun s leads => ?_⟩
  · rw [← walk_ends_iff]
    simp only [mpinit, accepted, ne_eq, Option.map_eq_none_iff]
  · simp only [mpinit, accepted, Option.map_eq_some_iff] at ends
    obtain ⟨s, ends, rfl⟩ := ends
    exact ⟨s, by rw [ismp_walk ends]; rfl⟩
  induction leads with
  | refl => exact Nat.zero_le _
  | tail _ next ih =>
    rcases turn_cases next with ⟨-, rfl⟩ | ⟨-, -, -, -, keeps⟩
    · exact ih
    · exact keeps ih

/-- A table of 45 bytes whose one entry has the type 5. -/
def oddTable : ℕ → Byte := fun a =>
  if 0x500 ≤ a then
    ([0x5f, 0x4d, 0x50, 0x5f, 0x10, 5, 0, 0, 1, 4, 139, 0, 0, 0, 0, 0, 0x50, 0x43, 0x4d, 0x50, 45, 0,
      1, 157] ++ List.replicate 36 0 ++ [5]).getD (a - 0x500) 0
  else if a = 0x40e then 0x50 else 0

theorem mpconfig_oddTable : mpconfig oddTable = some 0x510 := by decide

theorem mpinit_ends_iff_oddTable : ¬ ∃ fuel msg, mpinit oddTable fuel = some (.error msg) := by
  intro ⟨fuel, msg, panics⟩
  obtain ⟨s, ok⟩ := (mpinit_ends_iff mpconfig_oddTable).2.1 fuel _ panics
  cases ok

theorem mpinit_oddTable : ¬ ∃ fuel, mpinit oddTable fuel ≠ none := by
  intro ⟨fuel, ends⟩
  have bad : Unknown oddTable (tableEnd oddTable 0x510) (.start oddTable 0x510) := by decide
  have stays := walk_unknown bad fuel
  simp only [mpinit, mpconfig_oddTable, stays, Option.map_none, ne_eq, not_true_eq_false] at ends

end Xv6.Mp
