/-!
# Reading UTF-8

Octets are read one at a time by a machine that knows how many continuation octets are still due
and between which bounds the next one must lie. Malformed input is reported rather than refused:
every maximal run of octets that starts a character and does not finish it counts as one fault, as
does every octet that can start nothing. Since each octet below 128 ends whatever was under way, a
line feed, as every other such octet, is always read as itself.
-/

namespace LogicCapture.Text.Utf8

/-- Where the machine stands between two octets. -/
inductive State where
  /-- between two characters -/
  | start
  /-- inside a character whose bits so far are `value`: the next octet lies between `low` and
  `high`, and `more` others follow it -/
  | within (more value : Nat) (low high : UInt8)
  deriving Repr, DecidableEq

/-- The first octet of a character: what it yields and where it leads. -/
def lead (b : UInt8) : List (Option Char) × State :=
  if b < 0x80 then ([some (Char.ofNat b.toNat)], .start)
  else if b < 0xC2 then ([none], .start)
  else if b < 0xE0 then ([], .within 0 (b.toNat - 0xC0) 0x80 0xBF)
  else if b == 0xE0 then ([], .within 1 0 0xA0 0xBF)
  else if b == 0xED then ([], .within 1 0xD 0x80 0x9F)
  else if b < 0xF0 then ([], .within 1 (b.toNat - 0xE0) 0x80 0xBF)
  else if b == 0xF0 then ([], .within 2 0 0x90 0xBF)
  else if b < 0xF4 then ([], .within 2 (b.toNat - 0xF0) 0x80 0xBF)
  else if b == 0xF4 then ([], .within 2 4 0x80 0x8F)
  else ([none], .start)

/-- One octet. An octet that does not continue the character under way closes it as a fault and is
read again as a first octet. -/
def step : State → UInt8 → List (Option Char) × State
  | .start, b => lead b
  | .within more value low high, b =>
    if low ≤ b && b ≤ high then
      let value := value * 64 + (b.toNat - 0x80)
      match more with
      | 0 => ([some (Char.ofNat value)], .start)
      | more + 1 => ([], .within more value 0x80 0xBF)
    else
      (none :: (lead b).1, (lead b).2)

def flush : State → List (Option Char)
  | .start => []
  | .within .. => [none]

/-- The characters and faults of the octets that follow. -/
def scanFrom (state : State) : List UInt8 → List (Option Char)
  | [] => flush state
  | b :: bs => (step state b).1 ++ scanFrom (step state b).2 bs

def scan (bytes : List UInt8) : List (Option Char) :=
  scanFrom .start bytes

/-! ## Octets below 128 -/

/-- The bounds of a character under way leave out the octets below 128. -/
def State.Sound : State → Prop
  | .start => True
  | .within _ _ low _ => 0x80 ≤ low

theorem sound_lead (b : UInt8) : (lead b).2.Sound := by
  unfold lead
  repeat' split
  all_goals simp [State.Sound]

theorem sound_step {state : State} (h : state.Sound) (b : UInt8) : (step state b).2.Sound := by
  cases state with
  | start => exact sound_lead b
  | within more value low high =>
    simp only [step]
    split
    · cases more <;> simp [State.Sound]
    · exact sound_lead b

/-- An octet below 128 closes whatever is under way and is itself. -/
theorem step_of_lt {state : State} (h : state.Sound) {b : UInt8} (hb : b < 0x80) :
    step state b = (flush state ++ [some (Char.ofNat b.toNat)], .start) := by
  have hlead : lead b = ([some (Char.ofNat b.toNat)], .start) := by rw [lead, if_pos hb]
  cases state with
  | start => exact hlead
  | within more value low high =>
    have hlow : ¬low ≤ b := fun hle =>
      UInt8.lt_irrefl b (UInt8.lt_of_lt_of_le hb (UInt8.le_trans h hle))
    simp only [step, hlow, decide_false, Bool.false_and, hlead]
    rfl

theorem scanFrom_of_lt {state : State} (h : state.Sound) {b : UInt8} (hb : b < 0x80)
    (before after : List UInt8) :
    scanFrom state (before ++ b :: after)
      = scanFrom state before ++ some (Char.ofNat b.toNat) :: scan after := by
  induction before generalizing state with
  | nil => simp [scanFrom, step_of_lt h hb, scan]
  | cons a before ih => simp [scanFrom, ih (sound_step h a), List.append_assoc]

/-- What stands before an octet below 128 and what stands behind it are read apart. -/
theorem scan_of_lt {b : UInt8} (hb : b < 0x80) (before after : List UInt8) :
    scan (before ++ b :: after) = scan before ++ some (Char.ofNat b.toNat) :: scan after :=
  scanFrom_of_lt (show State.start.Sound from trivial) hb before after

end LogicCapture.Text.Utf8
