import LogicCapture.Text.Codec

/-!
# Reading lines from pieces

Octets arrive in pieces of any size and leave as lines. The reader holds octets already returned
but not yet released, of which only the number is kept, the beginning of the next line that is known
to hold no line feed, and octets not yet searched for one. The returned octets are released as soon
as they make up half of what is held, so what is held stays in proportion to the longest line. No
step looks again at what has been searched, and a piece costs no more than its own size.
-/

namespace LogicCapture.Text

/-- Lines in the making: the number of octets returned and not yet released, the octets of the next
line searched so far, those to be searched next, those to be searched after them, which run
backwards, and the number of octets in these three. -/
structure LineReader where
  codec : Codec := .utf8
  returned : Nat := 0
  searched : Array UInt8 := #[]
  unread : List UInt8 := []
  arrived : List UInt8 := []
  pending : Nat := 0
  pending_eq : pending = searched.size + unread.length + arrived.length := by rfl

namespace LineReader

/-- A reader of lines with this codec to which no octets have come. -/
def start (codec : Codec) : LineReader :=
  { codec }

/-- The number of octets held, the returned ones included. -/
def retained (r : LineReader) : Nat :=
  r.returned + r.pending

def rest (r : LineReader) : List UInt8 :=
  r.searched.toList ++ r.unread ++ r.arrived.reverse

theorem length_rest (r : LineReader) : r.rest.length = r.pending := by
  simp [rest, r.pending_eq, Nat.add_assoc]

/-- Let go of the returned octets once they are at least half of all that is held. -/
def release (r : LineReader) : LineReader :=
  if r.retained ≤ 2 * r.returned then { r with returned := 0 } else r

@[simp] theorem rest_release (r : LineReader) : r.release.rest = r.rest := by
  unfold release; split <;> rfl

def push (r : LineReader) (bytes : List UInt8) : LineReader :=
  let r := r.release
  { r with
    arrived := bytes.reverse ++ r.arrived
    pending := r.pending + bytes.length
    pending_eq := by
      rw [r.pending_eq, List.length_append, List.length_reverse]
      omega }

@[simp] theorem rest_push (r : LineReader) (bytes : List UInt8) :
    (r.push bytes).rest = r.rest ++ bytes := by
  have hpush : (r.push bytes).rest = r.release.rest ++ bytes := by simp [push, rest]
  rw [hpush, rest_release]

/-! ## Complete lines -/

theorem pending_split (r : LineReader) :
    r.pending = r.searched.size + (r.unread.takeWhile (· != newline)).length +
      (r.unread.dropWhile (· != newline)).length + r.arrived.length := by
  have hsplit := congrArg List.length
    (List.takeWhile_append_dropWhile (p := (· != newline)) (l := r.unread))
  rw [List.length_append] at hsplit
  rw [r.pending_eq]
  omega

/-- The next complete line without its line feed, if the octets to be searched next complete it. -/
def search (r : LineReader) : Option Decoded × LineReader :=
  let head := r.unread.takeWhile (· != newline)
  match h : r.unread.dropWhile (· != newline) with
  | [] => (none, { r with
      searched := r.searched ++ head
      unread := []
      pending_eq := by
        have hsplit := r.pending_split
        rw [h] at hsplit
        simpa [← Array.length_toList, head] using hsplit })
  | _ :: unread =>
    let size := r.searched.size + head.length + 1
    (some (r.codec.decode (r.searched.toList ++ head)), { r with
      returned := r.returned + size
      searched := #[]
      unread
      pending := r.pending - size
      pending_eq := by
        have hsplit := r.pending_split
        rw [h, List.length_cons] at hsplit
        simp only [hsplit, List.size_toArray, List.length_nil, Nat.zero_add, size, head]
        omega })

def refill (r : LineReader) : LineReader :=
  { r with
    unread := r.unread ++ r.arrived.reverse
    arrived := []
    pending_eq := by simp [r.pending_eq, Nat.add_assoc] }

@[simp] theorem rest_refill (r : LineReader) : r.refill.rest = r.rest := by
  simp [refill, rest]

/-- The next complete line without its line feed, if one has arrived. A carriage return before
the line feed stays part of the line. -/
def next (r : LineReader) : Option Decoded × LineReader :=
  match r.search with
  | (some line, r) => (some line, r)
  | (none, r) => r.refill.search

/-- The octets searched so far and those up to the next line feed. -/
def headLine (r : LineReader) : List UInt8 :=
  r.searched.toList ++ r.unread.takeWhile (· != newline)

theorem rest_search {r r' : LineReader} {line : Decoded} (h : r.search = (some line, r')) :
    line = r.codec.decode r.headLine ∧ r.rest = r.headLine ++ newline :: r'.rest := by
  unfold search at h
  split at h
  · simp at h
  · next feed unread hdrop =>
    obtain ⟨hline, rfl⟩ := Prod.mk.inj h
    refine ⟨(Option.some.inj hline).symm, ?_⟩
    have hfeed : feed = newline := by
      have := List.head?_dropWhile_not (· != newline) r.unread
      simpa [hdrop] using this
    have hsplit := List.takeWhile_append_dropWhile (p := (· != newline)) (l := r.unread)
    rw [hdrop, hfeed] at hsplit
    calc r.rest
        = r.searched.toList ++ (r.unread.takeWhile (· != newline) ++ newline :: unread) ++
            r.arrived.reverse := by rw [hsplit, rest]
      _ = _ := by simp [rest, headLine]

theorem rest_search_none {r r' : LineReader} (h : r.search = (none, r')) :
    r'.rest = r.rest ∧ r'.codec = r.codec ∧ r'.unread = [] := by
  unfold search at h
  split at h
  · next hdrop =>
    obtain ⟨-, rfl⟩ := Prod.mk.inj h
    have hsplit := List.takeWhile_append_dropWhile (p := (· != newline)) (l := r.unread)
    rw [hdrop, List.append_nil] at hsplit
    exact ⟨by simp [rest, hsplit], rfl, rfl⟩
  · simp at h

/-- What is returned and what is left make up what was there. -/
theorem rest_next {r r' : LineReader} {line : Decoded} (h : r.next = (some line, r')) :
    ∃ bytes, line = r.codec.decode bytes ∧ r.rest = bytes ++ newline :: r'.rest := by
  unfold next at h
  split at h
  · next hsearch =>
    obtain ⟨hline, rfl⟩ := Prod.mk.inj h
    exact ⟨_, rest_search (hsearch.trans (by rw [hline]))⟩
  · next left hsearch =>
    obtain ⟨hrest, hcodec, -⟩ := rest_search_none hsearch
    obtain ⟨hline, hbytes⟩ := rest_search h
    exact ⟨_, hline.trans (congrArg (·.decode left.refill.headLine) hcodec), by
      rw [← hrest, ← rest_refill left, hbytes]⟩

theorem rest_next_none {r r' : LineReader} (h : r.next = (none, r')) : r'.rest = r.rest := by
  unfold next at h
  split at h
  · simp at h
  · next left hsearch =>
    rw [(rest_search_none h).1, rest_refill, (rest_search_none hsearch).1]

theorem search_codec (r : LineReader) : r.search.2.codec = r.codec := by
  unfold search; split <;> rfl

theorem next_codec (r : LineReader) : r.next.2.codec = r.codec := by
  unfold next
  split
  · next h => simpa [h] using r.search_codec
  · next left h => rw [search_codec, refill, (rest_search_none h).2.1]

theorem pending_next {r r' : LineReader} {line : Decoded} (h : r.next = (some line, r')) :
    r'.pending < r.pending := by
  obtain ⟨bytes, -, hrest⟩ := rest_next h
  have := congrArg List.length hrest
  rw [List.length_append, List.length_cons, length_rest, length_rest] at this
  omega

/-! ## Several lines and the last one -/

/-- A pass over the complete lines that is left after `n` of them. It ends behind a line that the
codec refuses. -/
def take (r : LineReader) : Nat → List Decoded × LineReader
  | 0 => ([], r)
  | n + 1 =>
    match r.next with
    | (none, r) => ([], r)
    | (some (.error reason), r) => ([.error reason], r)
    | (some (.ok line), r) =>
      let (lines, r) := r.take n
      (.ok line :: lines, r)

/-- A whole pass over the complete lines. -/
def drain (r : LineReader) : List Decoded × LineReader :=
  match _h : r.next with
  | (none, r') => ([], r')
  | (some (.error reason), r') => ([.error reason], r')
  | (some (.ok line), r') =>
    let (lines, r') := r'.drain
    (.ok line :: lines, r')
termination_by r.pending
decreasing_by all_goals exact pending_next (by assumption)

/-- What is left after the last line feed, as a last line; nothing if no octet is left. -/
def finish (r : LineReader) : Option Decoded × LineReader :=
  if r.pending = 0 then (none, r)
  else (some (r.codec.decode r.rest), start r.codec)

end LineReader

end LogicCapture.Text
