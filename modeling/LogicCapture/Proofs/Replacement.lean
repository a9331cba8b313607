import Mathlib
import LogicCapture.Proofs.Encoded

/-!
# Faults in a text

An encoding is given by the octets of its characters. Octets are read from the front: a character
that stands there is taken, and where none stands the longest part that still begins one is a fault,
or a single octet if not even that begins one (`Encoding.Reads`). This is the reading of Unicode in
which each maximal part of something ill-formed is replaced on its own. There is exactly one such
reading of any octets, and it is the one that the machine finds octet by octet (`reads_iff`).

For UTF-8 the reason is that the machine is inside a character just as long as some character begins
with the octets so far: what is under way can always be completed (`Open.begins`), and an octet out
of bounds continues no character (`Open.not_begins`).
-/

namespace LogicCapture.Text

namespace Encoding

variable {e : Encoding} {c c' : Char} {octets octets' part rest bytes : List UInt8}
  {text text' : List (Option Char)}

/-! ## Readings -/

def encodeChar? : Encoding → Char → Option (List UInt8)
  | .utf8, c => some (String.utf8EncodeChar c)
  | .latin1, c => if c.toNat < 0x100 then some [UInt8.ofNat c.toNat] else none
  | .ascii, c => if c.toNat < 0x80 then some [UInt8.ofNat c.toNat] else none

def Begins (e : Encoding) (part : List UInt8) : Prop :=
  ∃ c octets, e.encodeChar? c = some octets ∧ part <+: octets

/-- No character stands in front of `part ++ rest`, and `part` is the longest part in front of it
that begins one, or a single octet. -/
structure Fault (e : Encoding) (part rest : List UInt8) : Prop where
  ne_nil : part ≠ []
  no_char : ∀ c octets, e.encodeChar? c = some octets → ¬octets <+: part ++ rest
  begins : part.length = 1 ∨ e.Begins part
  greatest : ∀ longer, longer <+: part ++ rest → part.length < longer.length → ¬e.Begins longer

/-- The characters that octets stand for, with `none` for each fault. -/
inductive Reads (e : Encoding) : List UInt8 → List (Option Char) → Prop where
  | nil : Reads e [] []
  | char {c : Char} {octets rest : List UInt8} {text : List (Option Char)} :
      e.encodeChar? c = some octets → Reads e rest text → Reads e (octets ++ rest) (some c :: text)
  | fault {part rest : List UInt8} {text : List (Option Char)} :
      e.Fault part rest → Reads e rest text → Reads e (part ++ rest) (none :: text)

theorem toNat_ofNat_of_lt {n : Nat} (h : n < 0x100) : (UInt8.ofNat n).toNat = n := by
  rw [UInt8.toNat_ofNat', Nat.mod_eq_of_lt h]

/-- A character is read back, whatever follows. -/
theorem scan_encodeChar? (h : e.encodeChar? c = some octets) (rest : List UInt8) :
    e.scan (octets ++ rest) = some c :: e.scan rest := by
  cases e with
  | utf8 =>
      obtain rfl := Option.some.inj h
      exact Utf8.scan_encodeChar c rest
  | latin1 =>
      obtain ⟨hlt, hoctets⟩ := Option.ite_none_right_eq_some.mp h
      obtain rfl := Option.some.inj hoctets
      rw [List.singleton_append, scan, List.map_cons, toNat_ofNat_of_lt hlt, Char.ofNat_toNat, scan]
  | ascii =>
      obtain ⟨hlt, hoctets⟩ := Option.ite_none_right_eq_some.mp h
      obtain rfl := Option.some.inj hoctets
      have hnat : (UInt8.ofNat c.toNat).toNat = c.toNat := toNat_ofNat_of_lt (by omega)
      have hsmall : UInt8.ofNat c.toNat < 0x80 := UInt8.lt_iff_toNat_lt.mpr (hnat.trans_lt hlt)
      rw [List.singleton_append, scan, List.map_cons, if_pos hsmall, hnat, Char.ofNat_toNat, scan]

theorem char_unique (h : e.encodeChar? c = some octets) (h' : e.encodeChar? c' = some octets')
    (hfront : octets <+: bytes) (hfront' : octets' <+: bytes) : c = c' ∧ octets = octets' := by
  obtain ⟨rest, rfl⟩ := hfront
  obtain ⟨rest', hrest'⟩ := hfront'
  have hread := scan_encodeChar? h' rest'
  rw [hrest', scan_encodeChar? h rest] at hread
  obtain rfl := Option.some.inj (List.cons.inj hread).1
  exact ⟨rfl, Option.some.inj (h.symm.trans h')⟩

theorem encodeChar?_ne_nil (h : e.encodeChar? c = some octets) : octets ≠ [] := by
  rintro rfl
  have hread := scan_encodeChar? h []
  cases e <;> cases hread

theorem Fault.unique {part' rest' : List UInt8} (h : e.Fault part rest) (h' : e.Fault part' rest')
    (heq : part ++ rest = part' ++ rest') : part = part' ∧ rest = rest' := by
  have hfront : part <+: part ++ rest := List.prefix_append _ _
  have hfront' : part' <+: part ++ rest := heq ▸ List.prefix_append part' rest'
  have hlength := List.length_pos_of_ne_nil h.ne_nil
  have hlength' := List.length_pos_of_ne_nil h'.ne_nil
  have hle : part'.length ≤ part.length := by
    by_contra hlt
    refine h.greatest part' hfront' (Nat.lt_of_not_le hlt) (h'.begins.resolve_left ?_)
    omega
  have hge : part.length ≤ part'.length := by
    by_contra hlt
    refine h'.greatest part (heq ▸ hfront) (Nat.lt_of_not_le hlt) (h.begins.resolve_left ?_)
    omega
  exact List.append_inj heq (Nat.le_antisymm hge hle)

theorem Begins.of_prefix {longer : List UInt8} (h : e.Begins longer) (hfront : part <+: longer) :
    e.Begins part := by
  obtain ⟨c, octets, hc, hlonger⟩ := h
  exact ⟨c, octets, hc, hfront.trans hlonger⟩

theorem fault_singleton {b : UInt8} (h : ¬e.Begins [b]) (rest : List UInt8) : e.Fault [b] rest where
  ne_nil := List.cons_ne_nil b []
  begins := Or.inl rfl
  no_char c octets hc hfront := by
    have hpos := List.length_pos_of_ne_nil (encodeChar?_ne_nil hc)
    exact h ⟨c, octets, hc,
      List.prefix_of_prefix_length_le (List.prefix_append [b] rest) hfront hpos⟩
  greatest longer hfront hlength hbegins :=
    h (hbegins.of_prefix (List.prefix_of_prefix_length_le (List.prefix_append [b] rest) hfront
      hlength.le))

/-- Octets have at most one reading. -/
theorem Reads.unique (h : e.Reads bytes text) (h' : e.Reads bytes text') : text = text' := by
  induction h generalizing text' with
  | nil =>
      generalize hnil : ([] : List UInt8) = bytes at h'
      cases h' with
      | nil => rfl
      | char hc _ => exact absurd (List.append_eq_nil_iff.mp hnil.symm).1 (encodeChar?_ne_nil hc)
      | fault hf _ => exact absurd (List.append_eq_nil_iff.mp hnil.symm).1 hf.ne_nil
  | @char c octets rest text hc _ ih =>
      generalize hbytes : octets ++ rest = bytes at h'
      have hfront : octets <+: bytes := hbytes ▸ List.prefix_append _ _
      cases h' with
      | nil => exact absurd (List.append_eq_nil_iff.mp hbytes).1 (encodeChar?_ne_nil hc)
      | char hc' hrest' =>
          obtain ⟨rfl, rfl⟩ := char_unique hc hc' hfront (List.prefix_append _ _)
          obtain rfl := List.append_cancel_left hbytes
          rw [ih hrest']
      | fault hf _ => exact absurd hfront (hf.no_char c octets hc)
  | @fault part rest text hf _ ih =>
      generalize hbytes : part ++ rest = bytes at h'
      cases h' with
      | nil => exact absurd (List.append_eq_nil_iff.mp hbytes).1 hf.ne_nil
      | char hc' _ => exact absurd (hbytes ▸ List.prefix_append _ _) (hf.no_char _ _ hc')
      | fault hf' hrest' =>
          obtain ⟨rfl, rfl⟩ := hf.unique hf' hbytes
          rw [ih hrest']

end Encoding

/-! ## The machine inside a character -/

namespace Utf8

open Encoding (Begins)

variable {part rest : List UInt8} {b low high : UInt8} {more value : Nat} {state : State}

/-- The octets of a character under way, and where the machine stands behind them. -/
inductive Open : List UInt8 → State → Prop where
  | lead {b : UInt8} {more value : Nat} {low high : UInt8} :
      lead b = ([], .within more value low high) → Open [b] (.within more value low high)
  | tail {part : List UInt8} {b : UInt8} {more value : Nat} {low high : UInt8} :
      Open part (.within (more + 1) value low high) → low ≤ b → b ≤ high →
        Open (part ++ [b]) (.within more (value * 64 + (b.toNat - 0x80)) 0x80 0xBF)

/-- A first octet is a character, begins one, or does neither. -/
theorem lead_cases (b : UInt8) :
    (b < 0x80 ∧ lead b = ([some (Char.ofNat b.toNat)], .start))
      ∨ lead b = ([none], .start)
      ∨ ∃ more value low high, lead b = ([], .within more value low high) := by
  generalize hresult : lead b = result
  unfold lead at hresult
  split at hresult
  · next hsmall => exact Or.inl ⟨hsmall, hresult.symm⟩
  · right
    repeat' split at hresult
    all_goals
      subst hresult
      first | exact Or.inl rfl | exact Or.inr ⟨_, _, _, _, rfl⟩

/-- The three kinds of first octets that are followed by others. The next octet is bounded where a
shorter form, a surrogate or a number beyond all characters would be written. -/
theorem lead_eq_within (h : lead b = ([], .within more value low high)) :
    (more = 0 ∧ b.toNat = value + 0xC0 ∧ 2 ≤ value ∧ value < 32
        ∧ low.toNat = 0x80 ∧ high.toNat = 0xBF)
      ∨ (more = 1 ∧ b.toNat = value + 0xE0 ∧ value < 16
        ∧ low.toNat = (if value = 0 then 0xA0 else 0x80)
        ∧ high.toNat = if value = 13 then 0x9F else 0xBF)
      ∨ (more = 2 ∧ b.toNat = value + 0xF0 ∧ value < 5
        ∧ low.toNat = (if value = 0 then 0x90 else 0x80)
        ∧ high.toNat = if value = 4 then 0x8F else 0xBF) := by
  -- the branches that start no character have another shape
  unfold lead at h
  repeat' split at h
  all_goals first
    | cases h; done
    | obtain ⟨rfl, rfl, rfl, rfl⟩ := State.within.inj (Prod.mk.inj h).2
      simp only [beq_iff_eq, UInt8.lt_iff_toNat_lt, ← UInt8.toNat_inj, UInt8.reduceToNat] at *
      grind

theorem toNat_val_ofNat {v : Nat} (h : v.isValidChar) : (Char.ofNat v).val.toNat = v :=
  (Char.toNat_ofNat v).trans (if_pos h)

theorem ofNat_eq_of_toNat {n : Nat} (h : n = b.toNat) : UInt8.ofNat n = b :=
  h ▸ UInt8.ofNat_toNat

theorem encodeChar_of_lt (h : b < 0x80) : String.utf8EncodeChar (Char.ofNat b.toNat) = [b] := by
  have hlt : b.toNat < 0x80 := UInt8.lt_iff_toNat_lt.mp h
  have hvalid : b.toNat.isValidChar := Or.inl (by omega)
  simp only [String.utf8EncodeChar, toNat_val_ofNat hvalid]
  rw [if_pos (by omega), UInt8.ofNat_toNat]

theorem Open.length_pos (h : Open part (.within more value low high)) : 0 < part.length := by
  cases h with
  | lead _ => exact Nat.one_pos
  | tail _ _ _ => simp

theorem Open.length_add_le (h : Open part (.within more value low high)) :
    part.length + more ≤ 3 := by
  generalize hstate : State.within more value low high = state at h
  induction h generalizing more value low high with
  | lead hlead =>
      obtain ⟨rfl, -⟩ := State.within.inj hstate
      have hfirst := lead_eq_within hlead
      rw [List.length_singleton]
      omega
  | tail _ _ _ ih =>
      obtain ⟨rfl, -⟩ := State.within.inj hstate
      have hpart := ih rfl
      rw [List.length_append, List.length_singleton]
      omega

/-- An octet that completes the character under way is the last one of its octets. -/
theorem Open.encodeChar (h : Open part (.within 0 value low high)) (hlow : low ≤ b)
    (hhigh : b ≤ high) :
    String.utf8EncodeChar (Char.ofNat (value * 64 + (b.toNat - 0x80))) = part ++ [b] := by
  rw [UInt8.le_iff_toNat_le] at hlow hhigh
  -- the first octet says whether one, two or three others follow it
  cases h with
  | @lead b₀ _ _ _ _ hlead =>
      have hfirst := lead_eq_within hlead
      generalize hv : value * 64 + (b.toNat - 0x80) = v
      have hvalid : v.isValidChar := Or.inl (by omega)
      simp only [String.utf8EncodeChar, toNat_val_ofNat hvalid]
      rw [if_neg (by omega), if_pos (by omega), ofNat_eq_of_toNat (b := b₀) (by omega),
        ofNat_eq_of_toNat (b := b) (by omega)]
      rfl
  | @tail _ b₁ _ value₁ _ _ h₁ hlow₁ hhigh₁ =>
      rw [UInt8.le_iff_toNat_le] at hlow₁ hhigh₁
      simp only [UInt8.reduceToNat] at hlow hhigh
      cases h₁ with
      | @lead b₀ _ _ _ _ hlead =>
          have hfirst := lead_eq_within hlead
          generalize hv : (value₁ * 64 + (b₁.toNat - 0x80)) * 64 + (b.toNat - 0x80) = v
          have hrange : 0x7FF < v ∧ v ≤ 0xFFFF ∧ (v < 0xD800 ∨ 0xDFFF < v) := by grind
          have hvalid : v.isValidChar := hrange.2.2.imp_right fun h => ⟨h, by omega⟩
          simp only [String.utf8EncodeChar, toNat_val_ofNat hvalid]
          rw [if_neg (by omega), if_neg (by omega), if_pos (by omega),
            ofNat_eq_of_toNat (b := b₀) (by grind), ofNat_eq_of_toNat (b := b₁) (by grind),
            ofNat_eq_of_toNat (b := b) (by grind)]
          rfl
      | @tail _ b₂ _ value₂ _ _ h₂ hlow₂ hhigh₂ =>
          rw [UInt8.le_iff_toNat_le] at hlow₂ hhigh₂
          simp only [UInt8.reduceToNat] at hlow₁ hhigh₁
          cases h₂ with
          | @lead b₀ _ _ _ _ hlead =>
              have hfirst := lead_eq_within hlead
              generalize hv : ((value₂ * 64 + (b₂.toNat - 0x80)) * 64 + (b₁.toNat - 0x80)) * 64
                + (b.toNat - 0x80) = v
              have hrange : 0xFFFF < v ∧ v < 0x110000 := by grind
              have hvalid : v.isValidChar := Or.inr ⟨by omega, hrange.2⟩
              simp only [String.utf8EncodeChar, toNat_val_ofNat hvalid]
              rw [if_neg (by omega), if_neg (by omega), if_neg (by omega),
                ofNat_eq_of_toNat (b := b₀) (by grind), ofNat_eq_of_toNat (b := b₂) (by grind),
                ofNat_eq_of_toNat (b := b₁) (by grind), ofNat_eq_of_toNat (b := b) (by grind)]
              rfl
          | tail h₃ _ _ =>
              have hlength := h₃.length_add_le
              have hpos := h₃.length_pos
              omega

theorem Open.low_le_high (h : Open part (.within more value low high)) : low ≤ high := by
  cases h with
  | lead hlead =>
      have hfirst := lead_eq_within hlead
      rw [UInt8.le_iff_toNat_le]
      grind
  | tail _ _ _ => decide

/-- What is under way can be completed to a character. -/
theorem Open.begins (h : Open part (.within more value low high)) : Encoding.utf8.Begins part := by
  induction more generalizing part value low high with
  | zero =>
      have hchar := h.encodeChar (UInt8.le_refl low) h.low_le_high
      exact ⟨_, _, rfl, hchar ▸ List.prefix_append part [low]⟩
  | succ more ih =>
      obtain ⟨c, octets, hc, hfront⟩ := ih (h.tail (UInt8.le_refl low) h.low_le_high)
      exact ⟨c, octets, hc, (List.prefix_append part [low]).trans hfront⟩

theorem Open.scan_append (h : Open part state) (rest : List UInt8) :
    scan (part ++ rest) = scanFrom state rest := by
  induction h generalizing rest with
  | lead hlead => exact scanFrom_lead hlead rest
  | @tail part b more value low high _ hlow hhigh ih =>
      have hwithin : (low ≤ b && b ≤ high) = true := by simp [hlow, hhigh]
      rw [List.append_assoc, ih, List.singleton_append, scanFrom, step, if_pos hwithin]
      rfl

theorem not_begins_of_fault {text : List UInt8 → List (Option Char)}
    (h : ∀ rest, scan (part ++ rest) = none :: text rest) : ¬Encoding.utf8.Begins part := by
  rintro ⟨c, octets, hc, rest, rfl⟩
  have hread := Encoding.scan_encodeChar? hc []
  rw [List.append_nil] at hread
  cases hread.symm.trans (h rest)

/-- A character under way that the next octet does not continue is a fault. -/
theorem Open.fault (h : Open part (.within more value low high)) {text : List (Option Char)}
    (hread : scan (part ++ rest) = none :: text)
    (hnext : ∀ b rest', rest = b :: rest' → ¬Encoding.utf8.Begins (part ++ [b])) :
    Encoding.utf8.Fault part rest where
  ne_nil := List.ne_nil_of_length_pos h.length_pos
  begins := Or.inr h.begins
  no_char c octets hc hfront := by
    obtain ⟨rest', hrest'⟩ := hfront
    have hchar := Encoding.scan_encodeChar? hc rest'
    rw [hrest'] at hchar
    cases hchar.symm.trans hread
  greatest longer hlonger hlength hlongerBegins := by
    obtain ⟨more, rfl⟩ := List.prefix_of_prefix_length_le (List.prefix_append part rest) hlonger
      hlength.le
    obtain ⟨rest', hrest'⟩ := (List.prefix_append_right_inj part).mp hlonger
    cases more with
    | nil => simp at hlength
    | cons b more =>
        refine hnext b (more ++ rest') hrest'.symm (hlongerBegins.of_prefix ?_)
        exact (List.prefix_append_right_inj part).mpr ⟨more, rfl⟩

/-- One octet more in front, read from between two characters. -/
theorem reads_cons (hrest : Encoding.utf8.Reads rest (scan rest))
    (hopen : ∀ more value low high, Open [b] (.within more value low high) →
      Encoding.utf8.Reads ([b] ++ rest) (scanFrom (.within more value low high) rest)) :
    Encoding.utf8.Reads (b :: rest) (scan (b :: rest)) := by
  rcases lead_cases b with ⟨hsmall, hlead⟩ | hlead | ⟨more, value, low, high, hlead⟩
  · have hchar : Encoding.utf8.encodeChar? (Char.ofNat b.toNat) = some [b] :=
      congrArg some (encodeChar_of_lt hsmall)
    rw [scan, scanFrom, step, hlead]
    exact .char hchar hrest
  · have hread : ∀ rest, scan ([b] ++ rest) = none :: scan rest := fun rest => by
      rw [scan, List.singleton_append, scanFrom, step, hlead]
      rfl
    rw [← List.singleton_append, hread]
    exact .fault (Encoding.fault_singleton (not_begins_of_fault hread) rest) hrest
  · rw [scan, scanFrom, step, hlead]
    exact hopen more value low high (.lead hlead)

/-- An octet that does not continue the character under way is read again. -/
theorem Open.reads_again (h : Open part (.within more value low high))
    (hbounds : ¬(low ≤ b && b ≤ high) = true)
    (hstart : Encoding.utf8.Reads (b :: rest) (scan (b :: rest))) :
    Encoding.utf8.Reads (part ++ b :: rest)
      (scanFrom (.within more value low high) (b :: rest)) := by
  have hread : ∀ rest, scan ((part ++ [b]) ++ rest) = none :: scan (b :: rest) := by
    intro rest
    rw [List.append_assoc, List.singleton_append, h.scan_append, scanFrom, step,
      if_neg hbounds, scan, scanFrom, step]
    rfl
  have hrest := hread rest
  rw [List.append_assoc, List.singleton_append] at hrest
  rw [← h.scan_append, hrest]
  refine .fault (h.fault hrest fun b' rest' heq => ?_) hstart
  obtain rfl := (List.cons.inj heq).1
  exact not_begins_of_fault hread

/-- Octets are read by the machine as the encoding says, from between two characters as well as from
inside one. -/
theorem reads_scanFrom (rest : List UInt8) :
    Encoding.utf8.Reads rest (scan rest) ∧ ∀ part more value low high,
      Open part (.within more value low high) →
        Encoding.utf8.Reads (part ++ rest) (scanFrom (.within more value low high) rest) := by
  induction rest with
  | nil =>
      refine ⟨.nil, fun part more value low high hopen => ?_⟩
      have hread := hopen.scan_append []
      exact .fault (hopen.fault hread fun _ _ => nofun) .nil
  | cons b rest ih =>
      obtain ⟨ihstart, ihwithin⟩ := ih
      have hstart := reads_cons ihstart (ihwithin [b])
      refine ⟨hstart, fun part more value low high hopen => ?_⟩
      by_cases hbounds : (low ≤ b && b ≤ high) = true
      · obtain ⟨hlow, hhigh⟩ : low ≤ b ∧ b ≤ high := by simpa using hbounds
        rw [scanFrom, step, if_pos hbounds]
        cases more with
        | zero =>
            have hchar := hopen.encodeChar hlow hhigh
            have hnext := Encoding.Reads.char (e := .utf8) (congrArg some hchar) ihstart
            rwa [List.append_assoc] at hnext
        | succ more =>
            have hnext := ihwithin _ _ _ _ _ (hopen.tail hlow hhigh)
            rwa [List.append_assoc] at hnext
      · exact hopen.reads_again hbounds hstart

end Utf8

namespace Encoding

theorem reads_latin1 (bytes : List UInt8) : latin1.Reads bytes (latin1.scan bytes) := by
  induction bytes with
  | nil => exact .nil
  | cons b bytes ih =>
      have hvalid : b.toNat.isValidChar := Or.inl (by have := b.toNat_lt; omega)
      have hnat : (Char.ofNat b.toNat).toNat = b.toNat := Utf8.toNat_val_ofNat hvalid
      have hchar : latin1.encodeChar? (Char.ofNat b.toNat) = some [b] := by
        rw [encodeChar?, hnat, if_pos b.toNat_lt, UInt8.ofNat_toNat]
      exact .char hchar ih

theorem reads_ascii (bytes : List UInt8) : ascii.Reads bytes (ascii.scan bytes) := by
  induction bytes with
  | nil => exact .nil
  | cons b bytes ih =>
      rw [scan, List.map_cons]
      by_cases hb : b < 0x80
      · have hlt : b.toNat < 0x80 := UInt8.lt_iff_toNat_lt.mp hb
        have hvalid : b.toNat.isValidChar := Or.inl (by omega)
        have hnat : (Char.ofNat b.toNat).toNat = b.toNat := Utf8.toNat_val_ofNat hvalid
        have hchar : ascii.encodeChar? (Char.ofNat b.toNat) = some [b] := by
          rw [encodeChar?, hnat, if_pos hlt, UInt8.ofNat_toNat]
        rw [if_pos hb]
        exact .char hchar ih
      · rw [if_neg hb]
        refine .fault (fault_singleton ?_ bytes) ih
        rintro ⟨c, octets, hc, hfront⟩
        obtain ⟨hlt, hoctets⟩ := Option.ite_none_right_eq_some.mp hc
        obtain rfl := Option.some.inj hoctets
        obtain rfl := (List.cons_prefix_cons.mp hfront).1
        exact hb (UInt8.lt_iff_toNat_lt.mpr ((toNat_ofNat_of_lt (by omega)).trans_lt hlt))

/-- Octets have exactly one reading, and it is the one that is found octet by octet. -/
theorem reads_iff (e : Encoding) (bytes : List UInt8) (text : List (Option Char)) :
    e.Reads bytes text ↔ text = e.scan bytes := by
  have hscan : e.Reads bytes (e.scan bytes) := by
    cases e with
    | utf8 => exact (Utf8.reads_scanFrom bytes).1
    | latin1 => exact reads_latin1 bytes
    | ascii => exact reads_ascii bytes
  exact ⟨fun h => h.unique hscan, fun h => h ▸ hscan⟩

end Encoding

end LogicCapture.Text
