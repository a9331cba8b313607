import Mathlib
import LogicCapture.Proofs.Marks

/-!
# An export is recognised if it can be read

A format that is not given is made out from the first octets alone. An export that the reader of
captures takes begins with a header, and a header begins with the tag or with the file identifier.
An export that the reader of text takes has its columns named in the first line that is not blank,
and such a line has a comma. That line is the one that is looked at if it ends among the first
octets (`firstLine?_take_eq`), so all that is left to ask is that it can be printed and that the
export does not begin like a capture. Then naming the format makes no difference (`recognised`).
-/

namespace LogicCapture

open Text (allLines joinLines newline Encoding)

namespace Binary

def legacyOctets : List UInt8 := [0x00, 0x2F, 0x00, 0x00]

/-- Any header begins with the tag or with the file identifier. -/
theorem Header.encode_begins (header : Header) :
    tag <+: header.encode ∨ legacyOctets <+: header.encode := by
  cases h : header.container.tagged with
  | true =>
      obtain ⟨bytes, hencode⟩ := Header.encode_of_tagged h
      exact Or.inl ⟨bytes, hencode.symm⟩
  | false =>
      obtain ⟨container, kind, chunkCount⟩ := header
      cases container with
      | legacy => exact Or.inr ⟨_, rfl⟩
      | taggedV0 => cases h
      | taggedV1 => cases h

theorem Reader.exists_header_of_finish {reader reader' : Reader}
    (h : finish reader = .ok () reader') :
    ∃ header : Header, header.encode <+: reader.buffer.toList := by
  have hstart : ({ data := reader.buffer } : Cursor).Inside := Nat.zero_le _
  unfold finish at h
  split at h
  · cases h
  · split at h
    · cases h
    · next header cursor hheader =>
      obtain ⟨_, ⟨-, rfl⟩, hpasses⟩ := (takes_decodeHeader hstart).mp hheader
      exact ⟨header, hpasses.isPrefix⟩

end Binary

namespace Detect

open Binary (tag legacyOctets)

theorem startsBinary_take_iff (data : List UInt8) :
    startsBinary (data.take Import.headSize) = true ↔ tag <+: data ∨ legacyOctets <+: data := by
  have htag : tag.length ≤ Import.headSize := by decide
  have hlegacy : legacyOctets.length ≤ Import.headSize := by decide
  rw [startsBinary, Bool.or_eq_true, List.isPrefixOf_iff_prefix, List.isPrefixOf_iff_prefix,
    List.prefix_take_iff, and_iff_left htag]
  exact or_congr_right (List.prefix_take_iff.trans (and_iff_left hlegacy))

variable {before after : List (List UInt8)} {header : List UInt8}

/-- Lines that end among the first octets are lines of them. -/
theorem exists_allLines_take {bytes : List UInt8} (h : allLines bytes = before ++ header :: after)
    (hheader : header ≠ []) {n : Nat} (hn : (joinLines before ++ header).length ≤ n) :
    ∃ others, allLines (bytes.take n) = before ++ header :: others := by
  induction before generalizing bytes n with
  | nil =>
      change header.length ≤ n at hn
      obtain ⟨hline, ⟨rfl, -, -⟩ | ⟨rest, rfl, -⟩⟩ := Text.allLines_eq_cons h
      · rw [List.take_of_length_le hn]
        exact ⟨after, h⟩
      · rcases take_line header rest n with hcut | ⟨m, hcut⟩
        · rw [hcut, List.take_of_length_le hn, Text.allLines_of_not_mem hline, if_neg hheader]
          exact ⟨[], rfl⟩
        · rw [hcut, Text.allLines_line hline]
          exact ⟨_, rfl⟩
  | cons line before ih =>
      obtain ⟨hline, ⟨-, -, hnone⟩ | ⟨rest, rfl, hrest⟩⟩ := Text.allLines_eq_cons h
      · exact absurd hnone (List.append_ne_nil_of_right_ne_nil _ (List.cons_ne_nil _ _))
      · rw [Text.joinLines_cons, List.length_append, List.length_cons] at hn
        obtain ⟨m, rfl⟩ : ∃ m, n = line.length + (m + 1) := ⟨n - line.length - 1, by omega⟩
        obtain ⟨others, hothers⟩ := ih hrest (n := m) (by omega)
        refine ⟨others, ?_⟩
        rw [List.take_length_add_append, List.take_succ_cons, Text.allLines_line hline, hothers,
          List.cons_append]

end Detect

namespace Csv

/-- The line of an export in UTF-8 that is read as its header: the first one that is not blank as it
stands. -/
structure FirstLine (data : List UInt8) (before : List (List UInt8)) (header : List UInt8) :
    Prop where
  lines : ∃ after, allLines data = before ++ header :: after
  blank : ∀ line ∈ before, Text.isBlank (Encoding.utf8.decode line) = true
  not_blank : Text.isBlank (Encoding.utf8.decode header) = false

namespace FirstLine

variable {data : List UInt8} {before : List (List UInt8)} {header : List UInt8}

theorem comma (h : FirstLine data before header) {s s' : Session} (hs : s.schema = none)
    (hread : s.readAll ((allLines data).map Encoding.utf8.decode) = (none, s')) :
    ',' ∈ (Encoding.utf8.decode header).toList := by
  obtain ⟨after, hlines⟩ := h.lines
  have hblank : ∀ line ∈ before.map Encoding.utf8.decode, Text.isBlank line = true :=
    List.forall_mem_map.mpr h.blank
  rw [hlines, List.map_append, Session.readAll_of_blank hblank, List.map_cons,
    Session.readAll_header hs h.not_blank] at hread
  cases hfields : Schema.ofFields (fields (Session.stripReturn (Encoding.utf8.decode header))) with
  | error failure =>
      rw [hfields] at hread
      cases (Prod.mk.inj hread).1
  | ok schema => exact Session.mem_of_mem_stripReturn (comma_of_ofFields hfields)

/-- If that line ends among the first octets, it is the one that is looked at. -/
theorem firstLine?_take_eq (h : FirstLine data before header)
    (hcomma : ',' ∈ (Encoding.utf8.decode header).toList) {n : Nat}
    (hn : (joinLines before ++ header).length ≤ n) :
    Detect.firstLine? (data.take n) = some (Detect.lineText header) := by
  obtain ⟨after, hlines⟩ := h.lines
  have hheader : header ≠ [] := by
    rintro rfl
    exact absurd h.not_blank (by decide)
  obtain ⟨others, hothers⟩ := Detect.exists_allLines_take hlines hheader hn
  exact Detect.firstLine?_of_header hothers h.blank hcomma

end FirstLine

end Csv

namespace Import

open Csv (FirstLine)
open Binary (tag legacyOctets)
open Trace (Store)

theorem importBytes_congr {config : Config} {request request' : Request} {source : Option String}
    {data : List UInt8} (store : Store)
    (h : resolve { config with request } (data.take headSize) source
      = resolve { config with request := request' } (data.take headSize) source) :
    importBytes { config with request } source store data
      = importBytes { config with request := request' } source store data := by
  unfold importBytes importWith openReader
  rw [h]
  rfl

variable {config : Config} {source : Option String} {store : Store} {data : List UInt8}

theorem resolve_of_format {name : String} (h : config.request = .format name) (head : List UInt8) :
    resolve config head source = CaptureFormat.ofLabel name := by
  unfold resolve
  rw [h]

/-- What is imported as a capture begins like one. -/
theorem prefix_of_binary (h : (importBytes config source store data).failure = none)
    (hrequest : config.request = .format "binary") (hsize : 1 ≤ config.pieceSize) :
    tag <+: data ∨ legacyOctets <+: data := by
  rw [importBytes_eq_importWhole hsize, importWhole_binary (resolve_of_format hrequest _)] at h
  dsimp only [Result.ofRun, Reader.finish, Reader.either] at h
  cases hfinish : Binary.Reader.finish
    { config := config.binary, buffer := data.toArray, store } with
  | error failure left =>
      rw [hfinish] at h
      cases h
  | ok _ reader =>
      obtain ⟨header, hheader⟩ := Binary.Reader.exists_header_of_finish hfinish
      rcases header.encode_begins with htag | hlegacy
      · exact Or.inl (htag.trans hheader)
      · exact Or.inr (hlegacy.trans hheader)

/-- What is imported as text in UTF-8 has a comma in the first line that is not blank. -/
theorem comma_of_csv (h : (importBytes config source store data).failure = none)
    (hrequest : config.request = .format "csv") (hsize : 1 ≤ config.pieceSize)
    (hutf8 : config.csv.encoding.codec = some .utf8)
    {before : List (List UInt8)} {header : List UInt8} (hfirst : FirstLine data before header) :
    ',' ∈ (Encoding.utf8.decode header).toList := by
  have hlines : Csv.Reader.linesIn config.csv.encoding = .ok (.start .utf8) := by
    rw [Csv.Reader.linesIn, hutf8]
    rfl
  have hdecoded : (allLines data).map Text.Codec.utf8.decode
      = ((allLines data).map Encoding.utf8.decode).map Except.ok := by
    rw [List.map_map]
    rfl
  rw [importBytes_eq_importWhole hsize,
    importWhole_csv (resolve_of_format hrequest _) hlines] at h
  dsimp only [Text.LineReader.start] at h
  rw [hdecoded, Csv.texts_map_ok, Csv.refusal?_map_ok, Option.or_none] at h
  exact hfirst.comma rfl (Prod.ext h rfl)

/-- An export that can be read is recognised. -/
theorem recognised (hsize : 1 ≤ config.pieceSize)
    (hutf8 : config.csv.encoding.codec = some .utf8) :
    ((importBytes { config with request := .format "binary" } source store data).failure = none →
      importBytes { config with request := .detect } source store data
        = importBytes { config with request := .format "binary" } source store data)
      ∧ ((importBytes { config with request := .format "csv" } source store data).failure = none →
        ∀ before header, FirstLine data before header →
          (joinLines before ++ header).length ≤ headSize →
          Text.isPrintable (Detect.lineText header) = true →
          ¬tag <+: data → ¬legacyOctets <+: data →
          importBytes { config with request := .detect } source store data
            = importBytes { config with request := .format "csv" } source store data) := by
  constructor
  · intro hread
    have hbinary := (Detect.startsBinary_take_iff data).mpr (prefix_of_binary hread rfl hsize)
    refine importBytes_congr store ?_
    simp only [resolve, Detect.guess?, hbinary, if_true]
    rfl
  · intro hread before header hfirst hlength hprintable htag hlegacy
    have hbinary : ¬Detect.startsBinary (data.take headSize) = true := by
      rw [Detect.startsBinary_take_iff]
      exact not_or.mpr ⟨htag, hlegacy⟩
    have hcomma := comma_of_csv hread rfl hsize hutf8 hfirst
    have hlooked := hfirst.firstLine?_take_eq hcomma hlength
    have hcsv : Detect.startsCsv (data.take headSize) = true := by
      rw [Detect.startsCsv, hlooked]
      simp only [hprintable, Bool.and_true, List.contains_iff_mem]
      exact Detect.comma_mem_lineText hcomma
    refine importBytes_congr store ?_
    simp only [resolve, Detect.guess?, if_neg hbinary, hcsv, if_true]
    rfl

/-- A capture and an export of one row are recognised, whatever the names of their files say. -/
theorem recognised_pulse_oneRow :
    importBytes { request := .detect } (some "a.csv") {} Binary.pulse.encode
        = importBytes { request := .format "binary" } (some "a.csv") {} Binary.pulse.encode
      ∧ importBytes { request := .detect } (some "a.bin") {} Csv.Reader.oneRow
        = importBytes { request := .format "csv" } (some "a.bin") {} Csv.Reader.oneRow := by
  have hsize : (1 : Int) ≤ ({} : Config).pieceSize := by decide
  have hutf8 : ({} : Config).csv.encoding.codec = some .utf8 := rfl
  have hpulse : (importBytes { request := .format "binary" } (some "a.csv") {}
      Binary.pulse.encode).failure.isNone = true := by decide +kernel
  have hrow : (importBytes { request := .format "csv" } (some "a.bin") {}
      Csv.Reader.oneRow).failure.isNone = true := by decide +kernel
  have hfirst : FirstLine Csv.Reader.oneRow [] (plainOctets "name,type,start_time,duration") := by
    refine ⟨⟨[plainOctets "A,b,1,0"], ?_⟩, ?_, ?_⟩
    · decide +kernel
    · simp
    · decide +kernel
  refine ⟨(recognised hsize hutf8).1 (Option.isNone_iff_eq_none.mp hpulse), ?_⟩
  refine (recognised hsize hutf8).2 (Option.isNone_iff_eq_none.mp hrow) _ _ hfirst ?_ ?_ ?_ ?_
  all_goals decide +kernel

end Import

end LogicCapture
