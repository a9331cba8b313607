import Std.Data.TreeMap

/-!
# String pool

Texts that recur, such as names and argument keys, are kept once and named by their position. The
pool is a list of texts in the order of their first appearance together with an index from texts to
positions; the index is the exact inverse of the list, so no text appears twice.
-/

namespace LogicCapture.Trace

/-- Distinct texts in the order of their first appearance, with the index of their positions. -/
structure StringPool where
  texts : Array String := #[]
  index : Std.TreeMap String Nat := ∅
  index_iff : ∀ (text : String) (handle : Nat),
    index[text]? = some handle ↔ texts[handle]? = some text := by simp

namespace StringPool

def empty : StringPool := {}

def text? (pool : StringPool) (handle : Nat) : Option String :=
  pool.texts[handle]?

/-- The handle of a text, which is added at the end if the pool does not have it. -/
def intern (pool : StringPool) (text : String) : Nat × StringPool :=
  match h : pool.index[text]? with
  | some handle => (handle, pool)
  | none =>
    (pool.texts.size,
      { texts := pool.texts.push text
        index := pool.index.insert text pool.texts.size
        index_iff := by
          intro other handle
          rw [Std.TreeMap.getElem?_insert, Array.getElem?_push]
          have absent : pool.texts[handle]? ≠ some text := by
            intro found
            rw [(pool.index_iff text handle).mpr found] at h
            cases h
          have inside := (pool.index_iff other handle)
          split <;> rename_i heq
          · rw [Std.LawfulEqCmp.compare_eq_iff_eq] at heq
            subst heq
            grind
          · rw [Std.LawfulEqCmp.compare_eq_iff_eq] at heq
            grind })

theorem intern_of_absent {pool : StringPool} {text : String} (h : pool.index[text]? = none) :
    (pool.intern text).1 = pool.texts.size
      ∧ (pool.intern text).2.texts = pool.texts.push text
      ∧ (pool.intern text).2.index = pool.index.insert text pool.texts.size := by
  unfold intern
  split
  · next handle hsome =>
    rw [h] at hsome
    cases hsome
  · exact ⟨rfl, rfl, rfl⟩

theorem mem_texts_iff {pool : StringPool} {text : String} :
    text ∈ pool.texts ↔ ∃ handle, pool.index[text]? = some handle := by
  simp only [pool.index_iff, Array.mem_iff_getElem?]

/-- The pool grows by exactly the texts it does not have. -/
theorem texts_intern (pool : StringPool) (text : String) :
    (pool.intern text).2.texts =
      if text ∈ pool.texts then pool.texts else pool.texts.push text := by
  unfold intern
  split
  · next handle h => rw [if_pos (mem_texts_iff.mpr ⟨handle, h⟩)]
  · next h =>
    rw [if_neg]
    rw [mem_texts_iff]
    rintro ⟨handle, h'⟩
    rw [h] at h'
    cases h'

/-- A handle resolves to the text it was given for. -/
theorem text?_intern (pool : StringPool) (text : String) :
    (pool.intern text).2.text? (pool.intern text).1 = some text := by
  unfold intern
  split
  · next handle h => exact (pool.index_iff text handle).mp h
  · simp [text?]

end StringPool

end LogicCapture.Trace
