import Mathlib
import LogicCapture.Proofs.Lines

/-!
# Texts as octets

A text that is written in UTF-8 is read back (`decode_utf8`). The first octet of a character says
how many others follow and between which bounds the next one lies, and each of them brings six bits
(`scanFrom_within`). All octets of a character but a plain one are above 127, so a text without line
feeds is a single line (`newline_not_mem_utf8`).
-/

namespace LogicCapture.Text

/-! ## Characters -/

namespace Utf8

theorem lead_two : ∀ k < 32, 2 ≤ k →
    lead (UInt8.ofNat (k + 192)) = ([], .within 0 k 0x80 0xBF) := by
  decide

/-- The next octet is bounded where a shorter form or a surrogate would be written. -/
theorem lead_three : ∀ k < 16, lead (UInt8.ofNat (k + 224))
    = ([], .within 1 k (if k = 0 then 0xA0 else 0x80) (if k = 13 then 0x9F else 0xBF)) := by
  decide

/-- The next octet is bounded where a shorter form or a number beyond all characters would be
written. -/
theorem lead_four : ∀ k < 5, lead (UInt8.ofNat (k + 240))
    = ([], .within 2 k (if k = 0 then 0x90 else 0x80) (if k = 4 then 0x8F else 0xBF)) := by
  decide

theorem scanFrom_lead {b : UInt8} {state : State} (h : lead b = ([], state)) (rest : List UInt8) :
    scanFrom .start (b :: rest) = scanFrom state rest := by
  rw [scanFrom, step, h, List.nil_append]

section Tail

variable {value k : Nat} {low high : UInt8}

theorem toNat_tail (hk : k < 64) : (UInt8.ofNat (k + 128)).toNat = k + 128 := by
  rw [UInt8.toNat_ofNat', Nat.mod_eq_of_lt (by omega)]

theorem tail_within (hk : k < 64) (hlow : low.toNat ≤ k + 128) (hhigh : k + 128 ≤ high.toNat) :
    (low ≤ UInt8.ofNat (k + 128) && UInt8.ofNat (k + 128) ≤ high) = true := by
  rw [Bool.and_eq_true, decide_eq_true_iff, decide_eq_true_iff, UInt8.le_iff_toNat_le,
    UInt8.le_iff_toNat_le, toNat_tail hk]
  exact ⟨hlow, hhigh⟩

theorem scanFrom_within (hk : k < 64) (hlow : low.toNat ≤ k + 128) (hhigh : k + 128 ≤ high.toNat)
    (more : Nat) (rest : List UInt8) :
    scanFrom (.within (more + 1) value low high) (UInt8.ofNat (k + 128) :: rest)
      = scanFrom (.within more (value * 64 + k) 0x80 0xBF) rest := by
  simp only [scanFrom, step, tail_within hk hlow hhigh, if_true, toNat_tail hk,
    Nat.add_sub_cancel, List.nil_append]

theorem scanFrom_last (hk : k < 64) (hlow : low.toNat ≤ k + 128) (hhigh : k + 128 ≤ high.toNat)
    (rest : List UInt8) :
    scanFrom (.within 0 value low high) (UInt8.ofNat (k + 128) :: rest)
      = some (Char.ofNat (value * 64 + k)) :: scan rest := by
  simp only [scanFrom, step, tail_within hk hlow hhigh, if_true, toNat_tail hk,
    Nat.add_sub_cancel, List.singleton_append, scan]

end Tail

/-- A character is read back, whatever follows. -/
theorem scan_encodeChar (c : Char) (rest : List UInt8) :
    scan (String.utf8EncodeChar c ++ rest) = some c :: scan rest := by
  have hvalid : c.val.toNat < 0xD800 ∨ 0xDFFF < c.val.toNat ∧ c.val.toNat < 0x110000 := c.valid
  have hchar : Char.ofNat c.val.toNat = c := Char.ofNat_toNat c
  have hsix : ∀ n, n % 64 < 64 := fun n => Nat.mod_lt n (by decide)
  have hlow : ∀ n, (0x80 : UInt8).toNat ≤ n % 64 + 128 := fun n => Nat.le_add_left _ _
  have hhigh : ∀ n, n % 64 + 128 ≤ (0xBF : UInt8).toNat := fun n =>
    Nat.add_le_add_right (Nat.le_of_lt_succ (hsix n)) 128
  fun_cases String.utf8EncodeChar c with
  | case1 v hone =>
      have hnat : (UInt8.ofNat v).toNat = v := by
        rw [UInt8.toNat_ofNat', Nat.mod_eq_of_lt (by omega)]
      have hlt : UInt8.ofNat v < 0x80 := by
        rw [UInt8.lt_iff_toNat_lt, hnat]
        exact Nat.lt_succ_of_le hone
      have hread := scan_of_lt hlt [] rest
      rw [hnat, hchar] at hread
      exact hread
  | case2 v hone htwo =>
      have hfirst := lead_two (v / 64 % 32) (Nat.mod_lt _ (by decide)) (by omega)
      have hvalue : v / 64 % 32 * 64 + v % 64 = v := by omega
      rw [scan, List.cons_append, List.cons_append, scanFrom_lead hfirst,
        scanFrom_last (hsix v) (hlow v) (hhigh v), List.nil_append, hvalue, hchar]
  | case3 v hone htwo hthree =>
      have hfirst := lead_three (v / 4096 % 16) (Nat.mod_lt _ (by decide))
      have hvalue : (v / 4096 % 16 * 64 + v / 64 % 64) * 64 + v % 64 = v := by omega
      rw [scan, List.cons_append, List.cons_append, List.cons_append, scanFrom_lead hfirst,
        scanFrom_within (hsix _) ?_ ?_, scanFrom_last (hsix v) (hlow v) (hhigh v),
        List.nil_append, hvalue, hchar]
      · split
        · show 0xA0 ≤ _
          omega
        · exact hlow _
      · split
        · show _ ≤ 0x9F
          omega
        · exact hhigh _
  | case4 v hone htwo hthree =>
      have hfirst := lead_four (v / 262144 % 8) (by omega)
      have hvalue :
          ((v / 262144 % 8 * 64 + v / 4096 % 64) * 64 + v / 64 % 64) * 64 + v % 64 = v := by
        omega
      rw [scan, List.cons_append, List.cons_append, List.cons_append, List.cons_append,
        scanFrom_lead hfirst, scanFrom_within (hsix _) ?_ ?_,
        scanFrom_within (hsix _) (hlow _) (hhigh _), scanFrom_last (hsix v) (hlow v) (hhigh v),
        List.nil_append, hvalue, hchar]
      · split
        · show 0x90 ≤ _
          omega
        · exact hlow _
      · split
        · show _ ≤ 0x8F
          omega
        · exact hhigh _

end Utf8

/-! ## Texts -/

def utf8 (text : String) : List UInt8 :=
  text.toList.flatMap String.utf8EncodeChar

theorem scan_utf8 (text : String) : Utf8.scan (utf8 text) = text.toList.map some := by
  rw [utf8]
  induction text.toList with
  | nil => rfl
  | cons c cs ih => rw [List.flatMap_cons, Utf8.scan_encodeChar, ih, List.map_cons]

theorem decode_utf8 (text : String) : Encoding.utf8.decode (utf8 text) = text := by
  have hchars : (text.toList.map some).map (·.getD '\uFFFD') = text.toList := by
    rw [List.map_map]
    exact List.map_id _
  rw [Encoding.decode, Encoding.scan, scan_utf8, hchars, String.ofList_toList]

theorem newline_not_mem_utf8 {text : String} (h : '\n' ∉ text.toList) : newline ∉ utf8 text := by
  intro hmem
  obtain ⟨before, after, hsplit⟩ := List.append_of_mem hmem
  have hread := Utf8.scan_of_lt (show newline < 0x80 by decide) before after
  rw [← hsplit, scan_utf8] at hread
  have hfeed : some '\n' ∈ text.toList.map some :=
    hread ▸ List.mem_append_right _ List.mem_cons_self
  obtain ⟨c, hc, heq⟩ := List.mem_map.mp hfeed
  exact h (Option.some.inj heq ▸ hc)

end LogicCapture.Text
