import Xv6.Lib.Fifo
import Xv6.Sleep.Machine

/-!
# The line discipline of the console

`consoleintr` and `consoleread` of `console.c`.  The characters from `input.r` to `input.w` are
committed, those from `input.w` to `input.e` can still be edited.  The reading loop is one step up
to where it sleeps or ends, and so is the handling of one character.  The echo on the screen and the
process listing of `^P` are left out.
-/

set_option linter.unusedSectionVars false

namespace Xv6.Console

open Lib Sleep Function

/-! ## The code -/

abbrev INPUT_BUF : ℕ := 128

def ctrl (x : Char) : Byte := BitVec.ofNat 8 (x.toNat - '@'.toNat)

def newline : Byte := BitVec.ofNat 8 '\n'.toNat

def carriage : Byte := BitVec.ofNat 8 '\r'.toNat

structure Input where
  buf : Fin INPUT_BUF → Byte
  r : BitVec 32
  w : BitVec 32
  e : BitVec 32

namespace Input

def line (i : Input) : Fifo Byte 32 INPUT_BUF := ⟨i.buf, i.r, i.e⟩

def ready (i : Input) : Fifo Byte 32 INPUT_BUF := ⟨i.buf, i.r, i.w⟩

def killLine : ℕ → Input → Input
  | 0, i => i
  | k + 1, i =>
      if i.e ≠ i.w ∧ i.buf (Fifo.slot (i.e - 1#32)) ≠ newline then
        killLine k { i with e := i.e - 1#32 }
      else i

/-- Store a character; the flag is whether the line is committed and the readers are woken. -/
def store (i : Input) (c : Byte) : Input × Bool :=
  let i := { i with buf := update i.buf (Fifo.slot i.e) c, e := i.e + 1#32 }
  if c = newline ∨ c = ctrl 'D' ∨ i.e = i.r + BitVec.ofNat 32 INPUT_BUF then
    ({ i with w := i.e }, true)
  else (i, false)

def typed (i : Input) (c : Byte) : Input × Bool :=
  if c = ctrl 'P' then (i, false)
  else if c = ctrl 'U' then (i.killLine (i.e - i.w).toNat, false)
  else if c = ctrl 'H' ∨ c = 0x7f#8 then
    (if i.e ≠ i.w then { i with e := i.e - 1#32 } else i, false)
  else if c ≠ 0#8 ∧ (i.e - i.r).toNat < INPUT_BUF then
    i.store (if c = carriage then newline else c)
  else (i, false)

end Input

/-- The variables of `consoleread`, and what it has stored to `dst`. -/
structure Reader where
  target : ℤ
  n : ℤ
  dst : List Byte

/-- Where the loop of `consoleread` was left. -/
inductive Stop where
  | newline
  | eof
  | count
  | killed
  deriving DecidableEq

/-- A call of `consoleread` that has ended. -/
structure Call (P : Type) where
  proc : P
  n : ℤ
  dst : List Byte
  stop : Stop

inductive Mark (P : Type) where
  /-- A byte was handed to the call of a process. -/
  | byte (p : P) (c : Byte)
  | ended (call : Call P)

/-- The buffer with a history of commits and reads, which no code reads. -/
structure Line (P : Type) where
  input : Input
  committed : List Byte
  history : List (Mark P)

/-- Whether the loop of `consoleread` waits or is left. -/
inductive Progress where
  | wait (rd : Reader)
  | done (rd : Reader)

namespace Line

variable {P : Type}

def typed (d : Line P) (c : Byte) : Line P × Bool :=
  match d.input.typed c with
  | (i, wake) =>
      ({ d with
          input := i
          committed := d.committed ++ Fifo.contents ⟨i.buf, d.input.w, i.w⟩ }, wake)

def ended (d : Line P) (p : P) (rd : Reader) (stop : Stop) : Line P :=
  { d with history := d.history ++ [.ended ⟨p, rd.target, rd.dst, stop⟩] }

/-- The loop of `consoleread` up to where it finds no character. -/
def fetch (p : P) : ℕ → Line P → Reader → Line P × Progress
  | 0, d, rd => (d.ended p rd .count, .done rd)
  | k + 1, d, rd =>
      if d.input.r = d.input.w then (d, .wait rd)
      else
        let c := d.input.buf (Fifo.slot d.input.r)
        let i := { d.input with r := d.input.r + 1#32 }
        if c = ctrl 'D' then
          let i := if rd.n < rd.target then { i with r := i.r - 1#32 } else i
          ({ d with input := i }.ended p rd .eof, .done rd)
        else
          let d := { d with input := i, history := d.history ++ [.byte p c] }
          let rd := { rd with n := rd.n - 1, dst := rd.dst ++ [c] }
          if c = newline then (d.ended p rd .newline, .done rd) else fetch p k d rd

end Line

inductive Chan where
  | r
  deriving DecidableEq

/-- The places of a process. -/
inductive Place where
  /-- Outside, with the result of the last call. -/
  | user (result : ℤ)
  /-- In `consoleintr`, with the characters that `getc` will give. -/
  | intrAcquire (cs : List Byte)
  | intrLoop (cs : List Byte)
  | intrWakeup (cs : List Byte)
  | intrRelease
  /-- In `consoleread`. -/
  | readAcquire (rd : Reader)
  | readLoop (rd : Reader)
  | readSleep (rd : Reader)
  | readFail
  | readRelease (rd : Reader)

inductive Request where
  | consoleintr (cs : List Byte)
  | consoleread (n : ℤ)

def conslock : SpinLock := .other 3

def code {P : Type} (p : P) : Place → Instr (Line P) Chan Request Place
  | .user _ => .compute fun _ d i =>
      match i with
      | .consoleintr cs => (d, .intrAcquire cs)
      | .consoleread n => (d, .readAcquire ⟨n, n, []⟩)
  | .intrAcquire cs => .acquire conslock (.intrLoop cs)
  | .intrLoop [] => .compute fun _ d _ => (d, .intrRelease)
  | .intrLoop (c :: cs) => .compute fun _ d _ =>
      match d.typed c with
      | (d', wake) => (d', if wake then .intrWakeup cs else .intrLoop cs)
  | .intrWakeup cs => .wakeup .r (.intrLoop cs)
  | .intrRelease => .release conslock (.user 0)
  | .readAcquire rd => .acquire conslock (.readLoop rd)
  | .readLoop rd => .compute fun killed d _ =>
      match d.fetch p rd.n.toNat rd with
      | (d', .wait rd') =>
          if killed then (d'.ended p rd' .killed, .readFail) else (d', .readSleep rd')
      | (d', .done rd') => (d', .readRelease rd')
  | .readSleep rd => .sleep .r conslock (.readLoop rd)
  | .readFail => .release conslock (.user (-1))
  | .readRelease rd => .release conslock (.user (rd.target - rd.n))

/-- An empty buffer with the indices anywhere, and nobody in the console code. -/
def init {P : Type} (buf : Fin INPUT_BUF → Byte) (k : BitVec 32) :
    Sleep.Machine P (Line P) Chan Place :=
  .start ⟨⟨buf, k, k, k⟩, [], []⟩ fun _ => .user 0

/-! ## The indices -/

theorem dvd_input : INPUT_BUF ∣ 2 ^ 32 := by decide

theorem lt_input : INPUT_BUF < 2 ^ 32 := by decide

namespace Input

/-- The buffer holds the committed characters `pend` and then `text`, which can be edited. -/
structure Holds (i : Input) (pend text : List Byte) : Prop where
  line : i.line.Holds (pend ++ text)
  commit : i.w = i.r + BitVec.ofNat 32 pend.length

theorem killLine_frame (k : ℕ) : ∀ i : Input, (i.killLine k).buf = i.buf ∧ (i.killLine k).r = i.r ∧
    (i.killLine k).w = i.w := by
  induction k with
  | zero => exact fun _ => ⟨rfl, rfl, rfl⟩
  | succ k ih =>
    intro i
    rw [killLine]
    split
    · exact ih _
    · exact ⟨rfl, rfl, rfl⟩

namespace Holds

variable {i : Input} {pend text : List Byte} {c : Byte}

section

variable (h : i.Holds pend text)
include h

theorem ready : i.ready.Holds pend := by
  have left := h.line.left
  rwa [show i.line.nread = i.r from rfl, ← h.commit] at left

theorem editable :
    Fifo.Holds (⟨i.buf, i.w, i.e⟩ : Fifo Byte 32 INPUT_BUF) text := by
  have right := h.line.right
  rwa [show i.line.nread = i.r from rfl, ← h.commit] at right

theorem waiting_iff : i.r = i.w ↔ pend = [] :=
  h.ready.empty_iff lt_input

theorem unedited_iff : i.e = i.w ↔ text = [] := by
  rw [eq_comm]
  exact h.editable.empty_iff lt_input

theorem indices :
    (i.w - i.r).toNat ≤ (i.e - i.r).toNat ∧ (i.e - i.r).toNat ≤ INPUT_BUF := by
  have all : (i.e - i.r).toNat = (pend ++ text).length := h.line.used lt_input
  have some : (i.w - i.r).toNat = pend.length := h.ready.used lt_input
  rw [all, some]
  exact ⟨by rw [List.length_append]; omega, h.line.fits⟩

end

theorem back (h : i.Holds pend (text ++ [c])) : Holds { i with e := i.e - 1#32 } pend text where
  line := by
    have line := h.line
    rw [← List.append_assoc] at line
    exact line.unput
  commit := h.commit

theorem killLine (k : ℕ) : ∀ {i : Input} {text : List Byte}, i.Holds pend text →
    ∃ text', text' <+: text ∧ (i.killLine k).Holds pend text' := by
  induction k with
  | zero => exact fun {i text} h => ⟨text, List.prefix_rfl, h⟩
  | succ k ih =>
    intro i text h
    rw [Input.killLine]
    split
    next more =>
      obtain rfl | ⟨text, c, rfl⟩ := List.eq_nil_or_concat' text
      · exact absurd (h.unedited_iff.2 rfl) more.1
      obtain ⟨text', sub, h'⟩ := ih h.back
      exact ⟨text', sub.trans (List.prefix_append ..), h'⟩
    · exact ⟨text, List.prefix_rfl, h⟩

theorem take (h : i.Holds (c :: pend) text) : i.buf (Fifo.slot i.r) = c ∧
    Holds { i with r := i.r + 1#32 } pend text := by
  refine ⟨h.line.head_eq, h.line.drop, ?_⟩
  show i.w = i.r + 1#32 + BitVec.ofNat 32 pend.length
  rw [h.commit, List.length_cons, Nat.add_comm, BitVec.ofNat_add, BitVec.add_assoc]

theorem store (h : i.Holds pend text) (room : (i.e - i.r).toNat < INPUT_BUF) :
    ∃ pend' text', (i.store c).1.Holds (pend ++ pend') text' ∧ (i.store c).1.r = i.r := by
  have space : ¬ i.line.Full := by
    intro full
    have all : (i.e - i.r).toNat = (pend ++ text).length := h.line.used lt_input
    rw [all, (h.line.full_iff lt_input).1 full] at room
    exact absurd room (lt_irrefl _)
  have put := h.line.put dvd_input lt_input space c
  rw [Input.store]
  dsimp only
  split
  · refine ⟨text ++ [c], [], ⟨?_, ?_⟩, rfl⟩
    · rwa [List.append_nil, ← List.append_assoc]
    rw [← List.append_assoc]
    exact put.count
  refine ⟨[], text ++ [c], ⟨?_, ?_⟩, rfl⟩
  · rwa [List.append_nil, ← List.append_assoc]
  rw [List.append_nil]
  exact h.commit

theorem typed (h : i.Holds pend text) (c : Byte) :
    ∃ pend' text', (i.typed c).1.Holds (pend ++ pend') text' ∧ (i.typed c).1.r = i.r := by
  have same {i' : Input} {text' : List Byte} (h' : i'.Holds pend text') (r : i'.r = i.r) :
      ∃ pend' text', i'.Holds (pend ++ pend') text' ∧ i'.r = i.r :=
    ⟨[], text', by rwa [List.append_nil], r⟩
  rw [Input.typed]
  split
  · exact same h rfl
  split
  · obtain ⟨text', -, h'⟩ := h.killLine (i.e - i.w).toNat
    exact same h' (killLine_frame _ i).2.1
  split
  · split
    next more =>
      obtain rfl | ⟨text, c, rfl⟩ := List.eq_nil_or_concat' text
      · exact absurd (h.unedited_iff.2 rfl) more
      · exact same h.back rfl
    · exact same h rfl
  split
  next room => exact h.store room.2
  · exact same h rfl

theorem contents_between {i' : Input} {pend' text' : List Byte} (h : i.Holds pend text)
    (h' : i'.Holds (pend ++ pend') text') (r : i'.r = i.r) :
    Fifo.contents (⟨i'.buf, i.w, i'.w⟩ : Fifo Byte 32 INPUT_BUF) = pend' := by
  have held := h'.ready.right
  rw [show i'.ready.nread = i.r from r, ← h.commit] at held
  exact held.contents_eq lt_input

end Holds

end Input

/-! ## What is committed and what is taken -/

/-- The characters that a mark stands for: a `^D` is taken by a call that ends without a byte. -/
def Mark.chars {P : Type} : Mark P → List Byte
  | .byte _ c => [c]
  | .ended call => if call.stop = .eof ∧ call.dst = [] then [ctrl 'D'] else []

def Mark.Unkilled {P : Type} : Mark P → Prop
  | .byte _ _ => True
  | .ended call => call.stop ≠ .killed

def taken {P : Type} (h : List (Mark P)) : List Byte := h.flatMap Mark.chars

def Mark.proc {P : Type} : Mark P → P
  | .byte p _ => p
  | .ended call => call.proc

/-- The bytes handed out one by one, and those that ended calls have got. -/
def Mark.handed {P : Type} : Mark P → List Byte
  | .byte _ c => [c]
  | .ended _ => []

def Mark.got {P : Type} : Mark P → List Byte
  | .byte _ _ => []
  | .ended call => call.dst

/-- A call ends after a newline, before a `^D`, with `n` bytes, or because its process was
killed. -/
def Call.Stopped {P : Type} (call : Call P) : Prop :=
  ctrl 'D' ∉ call.dst ∧
    match call.stop with
    | .newline => (∃ line, call.dst = line ++ [newline] ∧ newline ∉ line) ∧
        (call.dst.length : ℤ) ≤ call.n
    | .eof | .killed => newline ∉ call.dst ∧ (call.dst.length : ℤ) < call.n
    | .count => newline ∉ call.dst ∧ (call.dst.length : ℤ) = max call.n 0

namespace Line

variable {P : Type}

/-- A call that ended at a `^D` did so before a committed `^D`. -/
structure Good (d : Line P) (pend text : List Byte) : Prop where
  held : d.input.Holds pend text
  order : d.committed = taken d.history ++ pend
  stops : ∀ call, .ended call ∈ d.history → call.Stopped
  eofs : ∀ h call, h ++ [.ended call] <+: d.history → call.stop = .eof →
    d.committed[(taken h).length]? = some (ctrl 'D')

theorem taken_append (h₁ h₂ : List (Mark P)) : taken (h₁ ++ h₂) = taken h₁ ++ taken h₂ :=
  List.flatMap_append

theorem committed_typed (d : Line P) (c : Byte) : (d.typed c).1.committed = d.committed ++
    Fifo.contents ⟨(d.input.typed c).1.buf, d.input.w, (d.input.typed c).1.w⟩ := rfl

namespace Good

variable {d : Line P} {pend text : List Byte} {c : Byte} {p : P} {rd : Reader}

theorem typed (h : d.Good pend text) (c : Byte) : ∃ pend' text', (d.typed c).1.Good pend' text' := by
  obtain ⟨pend', text', held, r⟩ := h.held.typed c
  refine ⟨pend ++ pend', text', held, ?_, h.stops, ?_⟩
  · rw [committed_typed, h.held.contents_between held r, h.order, List.append_assoc]
    rfl
  intro h₁ call sub eof
  have there := h.eofs h₁ call sub eof
  rw [committed_typed, List.getElem?_append_left (List.getElem?_eq_some_iff.1 there).1, there]

theorem byte (h : d.Good (c :: pend) text) (p : P) :
    Good { d with
      input := { d.input with r := d.input.r + 1#32 }, history := d.history ++ [.byte p c] }
      pend text where
  held := h.held.take.2
  order := by
    show d.committed = _
    rw [h.order, taken_append, List.append_assoc]
    rfl
  stops := by
    intro call mem
    rcases List.mem_append.1 mem with old | new
    · exact h.stops call old
    · cases List.mem_singleton.1 new
  eofs := by
    intro h₁ call sub eof
    rcases List.prefix_concat_iff.1 sub with all | old
    · cases (List.append_inj' all rfl).2
    · exact h.eofs h₁ call old eof

theorem ended {call : Call P} {i : Input} {pend' : List Byte} (h : d.Good pend text)
    (held : i.Holds pend' text) (takes : pend = Mark.chars (.ended call) ++ pend')
    (stop : call.Stopped) (eof : call.stop = .eof → pend.head? = some (ctrl 'D')) :
    Good { d with input := i, history := d.history ++ [.ended call] } pend' text where
  held := held
  order := by
    show d.committed = _
    rw [h.order, taken_append, List.append_assoc, takes]
    simp [taken]
  stops := by
    intro call' mem
    rcases List.mem_append.1 mem with old | new
    · exact h.stops call' old
    cases List.mem_singleton.1 new
    exact stop
  eofs := by
    intro h₁ call' sub eof'
    rcases List.prefix_concat_iff.1 sub with all | old
    · obtain ⟨rfl, same⟩ := List.append_inj' all rfl
      cases same
      show d.committed[_]? = _
      rw [h.order, List.getElem?_append_right le_rfl, Nat.sub_self, ← List.head?_eq_getElem?]
      exact eof eof'
    · exact h.eofs h₁ call' old eof'

end Good

end Line

namespace Reader

/-- What the loop of `consoleread` knows of its own variables. -/
structure Ok (rd : Reader) : Prop where
  line : newline ∉ rd.dst
  eof : ctrl 'D' ∉ rd.dst
  left : rd.n = rd.target - rd.dst.length
  more : 0 ≤ rd.n ∨ rd.dst = []

theorem Ok.start (n : ℤ) : Ok ⟨n, n, []⟩ where
  line := nofun
  eof := nofun
  left := by simp
  more := .inr rfl

theorem Ok.next {rd : Reader} (h : rd.Ok) {c : Byte} (more : 0 < rd.n) (line : c ≠ newline)
    (eof : c ≠ ctrl 'D') : Ok { rd with n := rd.n - 1, dst := rd.dst ++ [c] } where
  line := by simpa using ⟨h.line, line.symm⟩
  eof := by simpa using ⟨h.eof, eof.symm⟩
  left := by
    have left := h.left
    simp only [List.length_append, List.length_singleton]
    omega
  more := .inl (by show (0 : ℤ) ≤ rd.n - 1; omega)

end Reader

namespace Line

variable {P : Type} [DecidableEq P]

/-- The bytes handed to the calls of a process, and those its ended calls have got. -/
def handedTo (p : P) (h : List (Mark P)) : List Byte :=
  (h.filter (·.proc = p)).flatMap Mark.handed

def gotBy (p : P) (h : List (Mark P)) : List Byte := (h.filter (·.proc = p)).flatMap Mark.got

/-- What the loop of `consoleread` has done when it waits or is left. -/
def Fetched (p : P) (d : Line P) : Progress → Prop
  | .wait rd => rd.Ok ∧ 0 < rd.n ∧ handedTo p d.history = gotBy p d.history ++ rd.dst
  | .done rd => rd.target - rd.n = rd.dst.length ∧
      handedTo p d.history = gotBy p d.history ∧
      ∃ stop, stop ≠ .killed ∧ .ended ⟨p, rd.target, rd.dst, stop⟩ ∈ d.history

theorem handedTo_snoc (p : P) (h : List (Mark P)) (m : Mark P) :
    handedTo p (h ++ [m]) = handedTo p h ++ if m.proc = p then m.handed else [] := by
  by_cases mine : m.proc = p <;> simp [handedTo, List.filter_append, mine]

theorem gotBy_snoc (p : P) (h : List (Mark P)) (m : Mark P) :
    gotBy p (h ++ [m]) = gotBy p h ++ if m.proc = p then m.got else [] := by
  by_cases mine : m.proc = p <;> simp [gotBy, List.filter_append, mine]

theorem handedTo_ended {p : P} {d : Line P} {rd : Reader} (stop : Stop)
    (all : handedTo p d.history = gotBy p d.history ++ rd.dst) :
    handedTo p (d.ended p rd stop).history = gotBy p (d.ended p rd stop).history := by
  have mine : (Mark.ended ⟨p, rd.target, rd.dst, stop⟩).proc = p := rfl
  rw [ended, handedTo_snoc, gotBy_snoc, if_pos mine, if_pos mine, all]
  exact List.append_nil _

theorem handedTo_byte {p : P} (h : List (Mark P)) (c : Byte) {dst : List Byte}
    (all : handedTo p h = gotBy p h ++ dst) :
    handedTo p (h ++ [.byte p c]) = gotBy p (h ++ [.byte p c]) ++ (dst ++ [c]) := by
  have mine : (Mark.byte p c).proc = p := rfl
  rw [handedTo_snoc, gotBy_snoc, if_pos mine, if_pos mine, all, List.append_assoc]
  exact congrArg (· ++ (dst ++ [c])) (List.append_nil _).symm

theorem fetch_spec (p : P) (k : ℕ) : ∀ {d : Line P} {rd : Reader} {pend text : List Byte},
    d.Good pend text → rd.Ok → k = rd.n.toNat → handedTo p d.history = gotBy p d.history ++ rd.dst →
    (∃ pend' text', (d.fetch p k rd).1.Good pend' text') ∧
      Fetched p (d.fetch p k rd).1 (d.fetch p k rd).2 := by
  induction k with
  | zero =>
    intro d rd pend text good ok fuel all
    have left := ok.left
    have count : (rd.dst.length : ℤ) = max rd.target 0 := by
      rcases ok.more with more | none
      · omega
      rw [none] at left ⊢
      simp only [List.length_nil] at left ⊢
      omega
    have stopped : Call.Stopped (⟨p, rd.target, rd.dst, .count⟩ : Call P) := ⟨ok.eof, ok.line, count⟩
    refine ⟨⟨pend, text, good.ended good.held rfl stopped nofun⟩, ?_⟩
    exact ⟨by omega, handedTo_ended .count all, .count, nofun, by simp [fetch, Line.ended]⟩
  | succ k ih =>
    intro d rd pend text good ok fuel all
    have left := ok.left
    have more : 0 < rd.n := by omega
    rw [fetch]
    split
    · exact ⟨⟨pend, text, good⟩, ok, more, all⟩
    rename_i some_
    cases pend with
    | nil => exact absurd (good.held.waiting_iff.2 rfl) some_
    | cons c pend =>
      obtain ⟨at_, rest⟩ := good.held.take
      dsimp only
      rw [at_]
      split
      · -- a `^D` is taken only by a call that has no byte yet
        rename_i eof
        subst eof
        have stopped : Call.Stopped (⟨p, rd.target, rd.dst, .eof⟩ : Call P) :=
          ⟨ok.eof, ok.line, by show (rd.dst.length : ℤ) < rd.target; omega⟩
        refine ⟨?_, by omega, handedTo_ended .eof all, .eof, nofun, by simp [Line.ended]⟩
        by_cases first : rd.dst = []
        · rw [first] at left
          rw [if_neg (by simp only [List.length_nil] at left; omega)]
          refine ⟨pend, text, good.ended rest ?_ stopped fun _ => rfl⟩
          simp [Mark.chars, first]
        have longer := List.length_pos_of_ne_nil first
        rw [if_pos (by omega), BitVec.add_sub_cancel]
        refine ⟨_ :: pend, text, good.ended good.held ?_ stopped fun _ => rfl⟩
        simp [Mark.chars, first]
      rename_i plain
      have good' := good.byte p
      have all' := handedTo_byte d.history c all
      split
      next last =>
        subst last
        have length : ((rd.dst ++ [newline]).length : ℤ) = rd.dst.length + 1 := by simp
        have stopped : Call.Stopped (⟨p, rd.target, rd.dst ++ [newline], .newline⟩ : Call P) := by
          refine ⟨?_, ⟨rd.dst, rfl, ok.line⟩, ?_⟩
          · simpa using ⟨ok.eof, plain ∘ Eq.symm⟩
          show ((rd.dst ++ [newline]).length : ℤ) ≤ rd.target
          omega
        refine ⟨⟨pend, text, good'.ended good'.held rfl stopped nofun⟩, ?_⟩
        refine ⟨?_, handedTo_ended .newline all', .newline, nofun, by simp [Line.ended]⟩
        show rd.target - (rd.n - 1) = ((rd.dst ++ [newline]).length : ℤ)
        omega
      next inner =>
        exact ih good' (ok.next more inner plain) (by show k = (rd.n - 1).toNat; omega) all'

theorem fetch_history (p : P) (k : ℕ) : ∀ (d : Line P) (rd : Reader), ∃ marks,
    (d.fetch p k rd).1.history = d.history ++ marks ∧ ∀ m ∈ marks, m.proc = p ∧ m.Unkilled := by
  have one (m : Mark P) (mine : m.proc = p) (un : m.Unkilled) :
      ∀ m' ∈ [m], m'.proc = p ∧ m'.Unkilled := by
    intro m' mem
    rw [List.mem_singleton.1 mem]
    exact ⟨mine, un⟩
  induction k with
  | zero => exact fun d rd => ⟨_, rfl, one _ rfl nofun⟩
  | succ k ih =>
    intro d rd
    rw [fetch]
    split
    · exact ⟨[], by simp, nofun⟩
    dsimp only
    split
    · exact ⟨_, rfl, one _ rfl nofun⟩
    split
    · refine ⟨[_, _], List.append_assoc .., fun m mem => ?_⟩
      rcases List.mem_pair.1 mem with rfl | rfl
      · exact ⟨rfl, trivial⟩
      · exact ⟨rfl, nofun⟩
    obtain ⟨marks, eq, mine⟩ := ih _ _
    refine ⟨_ :: marks, by rw [eq, List.append_assoc]; rfl, fun m mem => ?_⟩
    rcases List.mem_cons.1 mem with rfl | mem
    · exact ⟨rfl, trivial⟩
    · exact mine m mem

end Line

/-! ## Every interleaving -/

def Place.dst : Place → List Byte
  | .readAcquire rd | .readLoop rd | .readSleep rd => rd.dst
  | _ => []

def Place.Knows {P : Type} (p : P) (h : List (Mark P)) : Place → Prop
  | .readAcquire rd | .readLoop rd | .readSleep rd => rd.Ok
  | .readRelease rd => rd.target - rd.n = rd.dst.length ∧
      ∃ stop, stop ≠ .killed ∧ .ended ⟨p, rd.target, rd.dst, stop⟩ ∈ h
  | _ => True

section

variable {P : Type} [DecidableEq P] {p : P} {x y : Place} {d d' : Line P} {pend text : List Byte}

theorem Place.Knows.mono {h : List (Mark P)} (know : x.Knows p h) (marks : List (Mark P)) :
    x.Knows p (h ++ marks) := by
  cases x
  case readRelease rd =>
    obtain ⟨result, stop, un, mem⟩ := know
    exact ⟨result, stop, un, List.mem_append_left _ mem⟩
  all_goals exact know

theorem code_compute {f : Bool → Line P → Request → Line P × Place} {b : Bool} {i : Request}
    (does : code p x = .compute f) (result : f b d i = (d', y)) (good : d.Good pend text)
    (know : x.Knows p d.history)
    (all : Line.handedTo p d.history = Line.gotBy p d.history ++ x.dst) :
    (∃ pend' text', d'.Good pend' text') ∧ y.Knows p d'.history ∧
      Line.handedTo p d'.history = Line.gotBy p d'.history ++ y.dst := by
  cases x <;> try cases does
  case user r =>
    cases i with
    | consoleintr cs =>
      cases result
      exact ⟨⟨pend, text, good⟩, trivial, all⟩
    | consoleread n =>
      cases result
      exact ⟨⟨pend, text, good⟩, Reader.Ok.start n, all⟩
  case intrLoop cs =>
    cases cs with
    | nil =>
      cases does
      cases result
      exact ⟨⟨pend, text, good⟩, trivial, all⟩
    | cons c cs =>
      cases does
      have good' := good.typed c
      have same : (d.typed c).1.history = d.history := rfl
      dsimp only at result
      generalize d.typed c = out at *
      obtain ⟨d₁, wake⟩ := out
      cases result
      rw [same]
      cases wake <;> exact ⟨good', trivial, all⟩
  case readLoop rd =>
    obtain ⟨⟨pend', text', good'⟩, done⟩ := Line.fetch_spec p rd.n.toNat good know rfl all
    dsimp only at result
    generalize d.fetch p rd.n.toNat rd = out at *
    obtain ⟨d₁, rd' | rd'⟩ := out
    · obtain ⟨ok, more, all'⟩ := done
      have left := ok.left
      dsimp only at result
      split at result
      · cases result
        have stopped : Call.Stopped (⟨p, rd'.target, rd'.dst, .killed⟩ : Call P) :=
          ⟨ok.eof, ok.line, by show (rd'.dst.length : ℤ) < rd'.target; omega⟩
        refine ⟨⟨pend', text', good'.ended good'.held rfl stopped nofun⟩, trivial, ?_⟩
        rw [Line.handedTo_ended .killed all']
        exact (List.append_nil _).symm
      · cases result
        exact ⟨⟨pend', text', good'⟩, ok, all'⟩
    · cases result
      obtain ⟨value, all', stop⟩ := done
      exact ⟨⟨pend', text', good'⟩, ⟨value, stop⟩, by rw [all']; exact (List.append_nil _).symm⟩

theorem code_history {f : Bool → Line P → Request → Line P × Place} {b : Bool} {i : Request}
    (does : code p x = .compute f) (result : f b d i = (d', y)) : ∃ marks,
    d'.history = d.history ++ marks ∧ ∀ m ∈ marks, m.proc = p ∧ (b = false → m.Unkilled) := by
  have none : ∃ marks, d.history = d.history ++ marks ∧
      ∀ m ∈ marks, m.proc = p ∧ (b = false → m.Unkilled) := ⟨[], by simp, nofun⟩
  cases x <;> try cases does
  case user r => cases i <;> cases result <;> exact none
  case intrLoop cs => cases cs <;> cases does <;> cases result <;> exact none
  case readLoop rd =>
    obtain ⟨marks, eq, mine⟩ := Line.fetch_history p rd.n.toNat d rd
    dsimp only at result
    generalize d.fetch p rd.n.toNat rd = out at *
    obtain ⟨d₁, rd' | rd'⟩ := out
    · dsimp only at result
      split at result
      next killed =>
        cases result
        refine ⟨marks ++ [_], by rw [Line.ended, eq, List.append_assoc], fun m mem => ?_⟩
        rcases List.mem_append.1 mem with old | new
        · exact ⟨(mine m old).1, fun _ => (mine m old).2⟩
        rw [List.mem_singleton.1 new]
        exact ⟨rfl, fun spared => absurd (killed.symm.trans spared) nofun⟩
      · cases result
        exact ⟨marks, eq, fun m mem => ⟨(mine m mem).1, fun _ => (mine m mem).2⟩⟩
    · cases result
      exact ⟨marks, eq, fun m mem => ⟨(mine m mem).1, fun _ => (mine m mem).2⟩⟩

theorem code_leads (goes : (code p x).Leads y) {h : List (Mark P)} (know : x.Knows p h) :
    y.Knows p h ∧ y.dst = x.dst := by
  cases x <;> try cases goes
  case intrLoop cs => cases cs <;> cases goes
  case readRelease rd => exact ⟨trivial, rfl⟩
  all_goals exact ⟨know, rfl⟩

structure Orderly (s : Sleep.Machine P (Line P) Chan Place) : Prop where
  good : ∃ pend text, s.data.Good pend text
  knows : ∀ p, (s.places p).Knows p s.data.history
  handed : ∀ p, Line.handedTo p s.data.history = Line.gotBy p s.data.history ++ (s.places p).dst

theorem handed_of_others {q : P} {h marks : List (Mark P)} (others : ∀ m ∈ marks, m.proc ≠ q) :
    Line.handedTo q (h ++ marks) = Line.handedTo q h ∧ Line.gotBy q (h ++ marks) = Line.gotBy q h := by
  have none : marks.filter (·.proc = q) = [] := by
    apply List.filter_eq_nil_iff.2
    intro m mem
    simpa using others m mem
  simp only [Line.handedTo, Line.gotBy, List.filter_append, none, List.append_nil, true_and]

namespace Orderly

variable {s s' : Sleep.Machine P (Line P) Chan Place} {e : Sleep.Event P Request}

theorem step (h : Orderly s) (st : Step code s e s') : Orderly s' := by
  rcases st.place with ⟨data, places⟩ | ⟨p, x, y, here, places, ⟨data, goes, -⟩ | ⟨f, i, does, eq⟩⟩
  · exact ⟨data ▸ h.good, fun p => by rw [data, places]; exact h.knows p,
      fun p => by rw [data, places]; exact h.handed p⟩
  all_goals
    have at_ : s.places p = x := by rw [Machine.places, here]; rfl
    have know := h.knows p
    have all := h.handed p
    rw [at_] at know all
  · obtain ⟨know', same⟩ := code_leads goes know
    refine ⟨data ▸ h.good, fun q => ?_, fun q => ?_⟩
    all_goals
      rw [data, places]
      by_cases mine : q = p
    · subst mine
      rwa [update_self]
    · rw [update_of_ne mine]
      exact h.knows q
    · subst mine
      rwa [update_self, same]
    · rw [update_of_ne mine]
      exact h.handed q
  obtain ⟨pend, text, good⟩ := h.good
  obtain ⟨good', know', all'⟩ := code_compute does eq good know all
  obtain ⟨marks, hist, own⟩ := code_history does eq
  refine ⟨good', fun q => ?_, fun q => ?_⟩
  all_goals
    rw [places]
    by_cases mine : q = p
  · subst mine
    rwa [update_self]
  · rw [update_of_ne mine, hist]
    exact (h.knows q).mono marks
  · subst mine
    rwa [update_self]
  have others : ∀ m ∈ marks, m.proc ≠ q := fun m mem eq => mine (eq ▸ (own m mem).1)
  obtain ⟨handed, got⟩ := handed_of_others (h := s.data.history) others
  rw [update_of_ne mine, hist, handed, got]
  exact h.handed q

theorem start (buf : Fin INPUT_BUF → Byte) (k : BitVec 32) :
    Orderly (init buf k : Sleep.Machine P (Line P) Chan Place) where
  good := ⟨[], [], ⟨Fifo.Holds.nil buf k, by simp [init, Machine.start]⟩, rfl, nofun, by
    intro h call sub
    exact absurd sub.length_le (by simp [init, Machine.start])⟩
  knows _ := trivial
  handed _ := rfl

end Orderly

/-- Nobody is killed, and no call was given up. -/
def Spared (s : Sleep.Machine P (Line P) Chan Place) : Prop :=
  (∀ p, (s.task p).killed = false) ∧ ∀ m ∈ s.data.history, m.Unkilled

theorem Spared.step {s s' : Sleep.Machine P (Line P) Chan Place} {e : Sleep.Event P Request}
    (h : Spared s) (st : Step code s e s') (spared : ∀ p, e ≠ .kill p) : Spared s' := by
  refine ⟨fun p => by rw [st.killed (spared p), h.1 p], ?_⟩
  rcases st.place with ⟨data, -⟩ | ⟨p, x, y, -, -, ⟨data, -⟩ | ⟨f, i, does, eq⟩⟩
  · exact data ▸ h.2
  · exact data ▸ h.2
  obtain ⟨marks, hist, own⟩ := code_history does eq
  rw [hist]
  intro m mem
  rcases List.mem_append.1 mem with old | new
  · exact h.2 m old
  · exact (own m new).2 (h.1 p)

/-- Only characters that are not committed are taken back. -/
def Input.Edits (i i' : Input) : Prop :=
  i'.buf = i.buf ∧ i'.r = i.r ∧ i'.w = i.w ∧ (i'.e - i.w).toNat ≤ (i.e - i.w).toNat

theorem Input.Holds.edits {i : Input} (h : i.Holds pend text) {c : Byte}
    (edit : c = ctrl 'U' ∨ c = ctrl 'H' ∨ c = 0x7f#8) : i.Edits (i.typed c).1 := by
  have shorter {i' : Input} {text' : List Byte} (h' : i'.Holds pend text')
      (same : i'.buf = i.buf ∧ i'.r = i.r ∧ i'.w = i.w) (le : text'.length ≤ text.length) :
      i.Edits i' := by
    have now : (i.e - i.w).toNat = text.length := h.editable.used lt_input
    have then_ : (i'.e - i'.w).toNat = text'.length := h'.editable.used lt_input
    rw [same.2.2] at then_
    exact ⟨same.1, same.2.1, same.2.2, by rw [now, then_]; exact le⟩
  rcases edit with rfl | back
  · obtain ⟨text', sub, h'⟩ := h.killLine (i.e - i.w).toNat
    exact shorter h' (killLine_frame _ i) sub.length_le
  have typed : (i.typed c).1 = if i.e ≠ i.w then { i with e := i.e - 1#32 } else i := by
    rcases back with rfl | rfl <;> rfl
  rw [typed]
  split
  next more =>
    obtain rfl | ⟨text, c, rfl⟩ := List.eq_nil_or_concat' text
    · exact absurd (h.unedited_iff.2 rfl) more
    · exact shorter h.back ⟨rfl, rfl, rfl⟩ (by simp)
  · exact shorter h ⟨rfl, rfl, rfl⟩ le_rfl

/-- However typed characters and reads are interleaved: the indices stay in order, at most
`INPUT_BUF` apart; backspace and `^U` take back only what is not committed; each committed character
is taken once or still in the buffer; and a call ends after a newline, at a `^D`, with `n` bytes, or
killed. -/
theorem console_line_discipline (buf : Fin INPUT_BUF → Byte) (k : BitVec 32)
    (es : List (Sleep.Event P Request)) {s : Sleep.Machine P (Line P) Chan Place}
    (reached : exec (run (Sleep.step code) es) (init buf k) = (.ok ⟨⟩, s)) :
    ((s.data.input.w - s.data.input.r).toNat ≤ (s.data.input.e - s.data.input.r).toNat ∧
      (s.data.input.e - s.data.input.r).toNat ≤ INPUT_BUF) ∧
    (∀ c, c = ctrl 'U' ∨ c = ctrl 'H' ∨ c = 0x7f#8 →
      s.data.input.Edits (s.data.input.typed c).1) ∧
    s.data.committed = taken s.data.history ++ s.data.input.ready.contents ∧
    (∀ h call, h ++ [.ended call] <+: s.data.history → call.stop = .eof →
      s.data.committed[(taken h).length]? = some (ctrl 'D')) ∧
    (∀ p, Line.handedTo p s.data.history =
      Line.gotBy p s.data.history ++ (s.places p).dst) ∧
    (∀ call, .ended call ∈ s.data.history → call.Stopped) ∧
    (∀ p rd, s.places p = .readRelease rd →
      code p (s.places p) = .release conslock (.user rd.dst.length) ∧
        ∃ stop, stop ≠ .killed ∧ .ended ⟨p, rd.target, rd.dst, stop⟩ ∈ s.data.history) ∧
    ((∀ p, .kill p ∉ es) → ∀ call, .ended call ∈ s.data.history → call.stop ≠ .killed) := by
  have h : Orderly s := of_run reached (.start buf k) fun s e h => h.step (next_step code s e)
  obtain ⟨pend, text, good⟩ := h.good
  refine ⟨good.held.indices, fun c edit => good.held.edits edit, ?_, good.eofs, h.handed,
    good.stops, fun p rd at_ => ?_, fun spared call mem => ?_⟩
  · rw [good.held.ready.contents_eq lt_input]
    exact good.order
  · have know := h.knows p
    rw [at_] at know ⊢
    exact ⟨by rw [code, know.1], know.2⟩
  have along : Along (Sleep.step code) (fun _ e => ∀ p, e ≠ .kill p) es (init buf k) :=
    along_of_forall_mem _ fun e mem p eq => spared p (eq ▸ mem)
  have keep (s : Sleep.Machine P (Line P) Chan Place) (e : Sleep.Event P Request) (h : Spared s)
      (ok : ∀ p, e ≠ .kill p) : wp (Sleep.step code e) (fun _ => Spared) anyStop s :=
    h.step (next_step code s e) ok
  have kept := along.wp_run keep ⟨fun _ => rfl, nofun⟩
  exact (wp_of_ok kept reached).2 _ mem

/-- Typed are `hx`, a backspace, `i`, a carriage return and two `^D`; process 1 reads three times.
-/
def threeReads : List (Sleep.Event (Fin 2) Request) :=
  List.replicate 23 (.run 0 (.consoleintr
    [104#8, 120#8, ctrl 'H', 105#8, carriage, ctrl 'D', ctrl 'D'])) ++
  List.replicate 4 (.run 1 (.consoleread 2)) ++ List.replicate 8 (.run 1 (.consoleread 9))

theorem console_line_discipline_threeReads :
    (exec (run (Sleep.step code) threeReads) (init (fun _ => 0#8) (-2))).2.data.committed =
        [104#8, 105#8, newline, ctrl 'D', ctrl 'D'] ∧
      (exec (run (Sleep.step code) threeReads) (init (fun _ => 0#8) (-2))).2.data.committed =
        taken (exec (run (Sleep.step code) threeReads) (init (fun _ => 0#8) (-2))).2.data.history ++
          (exec (run (Sleep.step code) threeReads)
            (init (fun _ => 0#8) (-2))).2.data.input.ready.contents := by
  have discipline := console_line_discipline (fun _ => 0#8) (-2) threeReads (exec_eq_of_ok rfl)
  exact ⟨by decide +kernel, discipline.2.2.1⟩

end

end Xv6.Console
