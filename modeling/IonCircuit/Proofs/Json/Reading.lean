import IonCircuit.Json.Parse
import IonCircuit.Proofs.Json.Number
import IonCircuit.Proofs.Json.Text
import Mathlib.Data.List.Chain

/-! Reading the compact text of a value gives the value back. The scanner undoes the writing of
tokens that have no two words in a row, and the reader puts the tokens together again. -/
namespace IonCircuit.Json

namespace Token

/-- Words need a character after them that ends them. -/
def isWord : Token → Bool
  | .null | .bool _ | .num _ => true
  | _ => false

/-- No two words follow each other. -/
def Spaced (ts : List Token) : Prop := ts.IsChain fun t u => t.isWord = false ∨ u.isWord = false

theorem ofWord?_chars {t : Token} (h : t.isWord = true) : ofWord? t.chars = some t := by
  cases t with
  | null => decide
  | bool b => cases b <;> decide
  | num n => exact n.ofWord?_chars
  | openArray | closeArray | openObject | closeObject | comma | colon | str s => cases h

theorem endsWord_of_mem_chars {t : Token} (h : t.isWord = true) :
    ∀ c ∈ t.chars, endsWord c = false := by
  suffices hplain : t.chars.all (fun c => !endsWord c) = true by simpa using hplain
  cases t with
  | null => decide
  | bool b => cases b <;> decide
  | num n =>
    have halphabet : Number.alphabet.all (fun c => !endsWord c) = true := by decide
    rw [List.all_eq_true] at *
    exact fun c hc => halphabet c (n.chars_subset hc)
  | openArray | closeArray | openObject | closeObject | comma | colon | str s => cases h

theorem chars_ne_nil (t : Token) : t.chars ≠ [] := by
  cases t with
  | bool b => cases b <;> simp [chars]
  | num n => exact n.chars_ne_nil
  | null | openArray | closeArray | openObject | closeObject | comma | colon | str s =>
    simp [chars]

end Token

namespace Scanner
variable {s : Scanner} {found : List Token} {t : Token} {c : Char}

/-- The scanner has found these tokens, the latest of them perhaps a word that may go on. -/
inductive Holds : Scanner → List Token → Prop
  | between (found : List Token) : Holds ⟨found, .between⟩ found
  | word (found : List Token) {t : Token} (h : t.isWord = true) :
      Holds ⟨found, .word t.chars.reverse⟩ (t :: found)

theorem Holds.step? (h : s.Holds found) (hc : Token.endsWord c = true) :
    s.step? c = some (start found c) := by
  cases h with
  | between found => rfl
  | word found ht => simp [Scanner.step?, hc, endWord?, Token.ofWord?_chars ht]

theorem Holds.finish? (h : s.Holds found) : s.finish? = some found.reverse := by
  cases h with
  | between found => rfl
  | word found ht => simp [Scanner.finish?, endWord?, Token.ofWord?_chars ht]

theorem start_of_plain (found : List Token) (hc : Token.endsWord c = false) :
    start found c = ⟨found, .word [c]⟩ := by
  simp only [Token.endsWord, Bool.or_eq_false_iff, beq_eq_false_iff_ne] at hc
  obtain ⟨⟨hblank, hquote⟩, hpunctuation⟩ := hc
  simp [start, hblank, hquote, Option.isNone_iff_eq_none.mp (by simpa using hpunctuation)]

theorem foldlM_plain {cs : List Char} (h : ∀ c ∈ cs, Token.endsWord c = false) (read : List Char) :
    cs.foldlM step? ⟨found, .word read⟩ = some ⟨found, .word (cs.reverse ++ read)⟩ := by
  induction cs generalizing read with
  | nil => rfl
  | cons c cs ih =>
    obtain ⟨hc, hcs⟩ := List.forall_mem_cons.mp h
    have hstep : step? ⟨found, .word read⟩ c = some ⟨found, .word (c :: read)⟩ := by
      simp [step?, hc]
    rw [List.foldlM_cons, hstep]
    simpa using ih hcs (c :: read)

/-- A word between two tokens is read up to its end and kept open. -/
theorem foldlM_word (found : List Token) (ht : t.isWord = true) :
    t.chars.foldlM step? ⟨found, .between⟩ = some ⟨found, .word t.chars.reverse⟩ := by
  have hplain := Token.endsWord_of_mem_chars ht
  cases hchars : t.chars with
  | nil => exact (t.chars_ne_nil hchars).elim
  | cons c cs =>
    rw [hchars] at hplain
    obtain ⟨hc, hcs⟩ := List.forall_mem_cons.mp hplain
    rw [List.foldlM_cons, show step? ⟨found, .between⟩ c = some (start found c) from rfl,
      start_of_plain found hc]
    simpa using foldlM_plain hcs [c]

theorem foldlM_encodeChar (c : Char) (read : List Char) :
    (Text.encodeChar c).foldlM step? ⟨found, .inside read⟩ =
      some ⟨found, .inside ((Text.encodeChar c).reverse ++ read)⟩ := by
  unfold Text.encodeChar
  split
  · simp [step?]
  · rename_i hplain
    rw [not_or] at hplain
    split
    · have hhex : ∀ k : Fin 16, Text.hexDigit k ≠ '"' ∧ Text.hexDigit k ≠ '\\' := by decide
      obtain ⟨hhighQuote, hhighBack⟩ := hhex ⟨c.toNat / 16, by omega⟩
      obtain ⟨hlowQuote, hlowBack⟩ := hhex ⟨c.toNat % 16, by omega⟩
      dsimp only at *
      simp [step?, hhighQuote, hhighBack, hlowQuote, hlowBack]
    · simp [step?, hplain.1, hplain.2]

theorem foldlM_encode (found : List Token) (t : Text) (read : List Char) :
    t.encode.foldlM step? ⟨found, .inside read⟩ =
      some ⟨found, .inside (t.encode.reverse ++ read)⟩ := by
  have hchars : ∀ (cs read : List Char),
      (cs.flatMap Text.encodeChar).foldlM step? ⟨found, .inside read⟩ =
        some ⟨found, .inside ((cs.flatMap Text.encodeChar).reverse ++ read)⟩ := by
    intro cs
    induction cs with
    | nil => exact fun _ => rfl
    | cons c cs ih =>
      intro read
      rw [List.flatMap_cons, List.foldlM_append, foldlM_encodeChar]
      simpa using ih _
  cases t with
  | none => simp [Text.encode, step?]
  | some s => exact hchars s.toList read

/-- Any other token is read whole, and it ends the word before it. -/
theorem Holds.foldlM_chars (h : s.Holds found) (ht : t.isWord = false) :
    t.chars.foldlM Scanner.step? s = some ⟨t :: found, .between⟩ := by
  cases t with
  | null | bool b | num n => cases ht
  | str t =>
    have hopen : s.step? '"' = some ⟨found, .inside []⟩ := h.step? (by decide)
    have hinside := foldlM_encode found t []
    simp only [Token.chars, List.cons_append, List.foldlM_cons, List.foldlM_append, hopen,
      Option.bind_eq_bind, Option.bind_some, hinside]
    simp [Scanner.step?, Text.decode?_encode]
  | openArray | closeArray | openObject | closeObject | comma | colon =>
    simp only [Token.chars, List.foldlM_cons, List.foldlM_nil]
    rw [h.step? (by decide)]
    rfl

theorem Holds.between_of_head (h : s.Holds found) (hf : ∀ u ∈ found.head?, u.isWord = false) :
    s = ⟨found, .between⟩ := by
  cases h with
  | between found => rfl
  | word found ht =>
    have hf := hf _ rfl
    rw [ht] at hf
    cases hf

/-- The scanner finds the tokens that a spaced text was written from. -/
theorem exists_holds_of_spaced {ts : List Token} (h : Token.Spaced ts) :
    ∃ s, (ts.flatMap Token.chars).foldlM Scanner.step? initial = some s ∧ s.Holds ts.reverse := by
  induction ts using List.reverseRecOn with
  | nil => exact ⟨initial, rfl, .between []⟩
  | append_singleton ts t ih =>
    -- A word can only be read from between tokens, so the token before it must not be one.
    obtain ⟨hts, -, hlast⟩ := List.isChain_append.mp h
    obtain ⟨s, hrun, hs⟩ := ih hts
    simp only [List.flatMap_append, List.flatMap_singleton, List.foldlM_append, hrun,
      List.reverse_append, List.reverse_singleton, List.singleton_append, Option.bind_eq_bind,
      Option.bind_some]
    cases ht : t.isWord with
    | false => exact ⟨_, hs.foldlM_chars ht, .between _⟩
    | true =>
      obtain rfl : s = ⟨ts.reverse, .between⟩ := hs.between_of_head fun u hu => by
        rw [List.head?_reverse] at hu
        simpa [ht] using hlast u hu t rfl
      exact ⟨_, foldlM_word _ ht, .word _ ht⟩

end Scanner

theorem scan?_of_spaced {ts : List Token} (h : Token.Spaced ts) :
    scan? (ts.flatMap Token.chars) = some ts := by
  obtain ⟨s, hrun, hs⟩ := Scanner.exists_holds_of_spaced h
  rw [scan?, hrun, Option.bind_some, hs.finish?, List.reverse_reverse]

/-- Spaced tokens that do not start with a word can follow any others. -/
structure Token.Marked (ts : List Token) : Prop where
  spaced : Spaced ts
  head : ∀ t ∈ ts.head?, t.isWord = false

namespace Token
variable {t : Token} {ts us : List Token}

theorem Spaced.append (h : Spaced ts) (h' : Marked us) : Spaced (ts ++ us) :=
  List.IsChain.append h h'.spaced fun _ _ u hu => .inr (h'.head u hu)

theorem Marked.cons (ht : t.isWord = false) (h : Spaced ts) : Marked (t :: ts) := by
  refine ⟨?_, by simpa using ht⟩
  cases ts with
  | nil => exact .singleton t
  | cons u us => exact .cons_cons (.inl ht) h

theorem Marked.append (h : Marked ts) (h' : Marked us) : Marked (ts ++ us) := by
  refine ⟨h.spaced.append h', fun t ht => ?_⟩
  cases ts with
  | nil => exact h'.head t ht
  | cons u ts => exact h.head t ht

theorem marked_nil : Marked [] := ⟨.nil, by simp⟩

/-- A name and a colon keep spaced tokens spaced. -/
theorem Spaced.field (h : Spaced ts) (k : Text) : Spaced (.str k :: .colon :: ts) :=
  (Marked.cons rfl (Marked.cons rfl h).spaced).spaced

end Token

section Tokens
open Token

mutual

/-- Commas and brackets keep the words of a value apart. -/
theorem spaced_tokens : ∀ j : Json, Spaced j.tokens
  | .null | .bool _ | .num _ | .str _ => .singleton _
  | .arr [] | .obj [] => (Marked.cons rfl (.singleton _)).spaced
  | .arr (j :: rest) =>
    ((Marked.cons rfl (spaced_tokens j)).append (marked_moreItems rest)).append
      (.cons rfl .nil) |>.spaced
  | .obj ((k, j) :: rest) =>
    ((Marked.cons rfl ((spaced_tokens j).field k)).append (marked_moreFields rest)).append
      (.cons rfl .nil) |>.spaced

theorem marked_moreItems : ∀ rest : List Json, Marked (moreItems rest)
  | [] => marked_nil
  | j :: rest => (Marked.cons rfl (spaced_tokens j)).append (marked_moreItems rest)

theorem marked_moreFields : ∀ rest : List (Text × Json), Marked (moreFields rest)
  | [] => marked_nil
  | (k, j) :: rest => (Marked.cons rfl ((spaced_tokens j).field k)).append (marked_moreFields rest)

end
end Tokens

namespace Reader

/-- An array reads its first item like any value. -/
theorem foldlM_firstItem (j : Json) (around : List Frame) :
    j.tokens.foldlM step? (.firstItem around) =
      j.tokens.foldlM step? (.value (.items [] :: around)) := by
  rcases j with - | b | n | s | (- | ⟨j, rest⟩) | (- | ⟨⟨k, j⟩, rest⟩) <;>
    simp [tokens, step?]

mutual

/-- The tokens of a value bring the reader to the end of that value. -/
theorem foldlM_tokens : ∀ (j : Json) (around : List Frame),
    j.tokens.foldlM step? (.value around) = some (close j around)
  | .null, _ | .bool _, _ | .num _, _ | .str _, _ => rfl
  | .arr [], _ | .obj [], _ => rfl
  | .arr (j :: rest), around => by
    have hj := foldlM_tokens j (.items [] :: around)
    have hrest := foldlM_moreItems rest [j] around
    simp [tokens, List.foldlM_cons, List.foldlM_append, step?, startValue?, foldlM_firstItem, hj,
      close, hrest]
  | .obj ((k, j) :: rest), around => by
    have hj := foldlM_tokens j (.fields [] k :: around)
    have hrest := foldlM_moreFields rest [(k, j)] around
    simp [tokens, List.foldlM_cons, List.foldlM_append, step?, startValue?, hj, close, hrest]

theorem foldlM_moreItems : ∀ (rest done : List Json) (around : List Frame),
    (moreItems rest).foldlM step? (.afterItem done around) =
      some (.afterItem (rest.reverse ++ done) around)
  | [], _, _ => rfl
  | j :: rest, done, around => by
    have hj := foldlM_tokens j (.items done :: around)
    have hrest := foldlM_moreItems rest (j :: done) around
    simp [moreItems, List.foldlM_cons, List.foldlM_append, step?, hj, close, hrest]

theorem foldlM_moreFields : ∀ (rest done : List (Text × Json)) (around : List Frame),
    (moreFields rest).foldlM step? (.afterField done around) =
      some (.afterField (rest.reverse ++ done) around)
  | [], _, _ => rfl
  | (k, j) :: rest, done, around => by
    have hj := foldlM_tokens j (.fields done k :: around)
    have hrest := foldlM_moreFields rest ((k, j) :: done) around
    simp [moreFields, List.foldlM_cons, List.foldlM_append, step?, hj, close, hrest]

end

end Reader

/-- The text of a value denotes that value. -/
theorem parse?_render (j : Json) : parse? j.render = some j := by
  rw [parse?, render, String.toList_ofList, scan?_of_spaced (spaced_tokens j), Option.bind_some,
    ofTokens?, Reader.foldlM_tokens]
  rfl

end IonCircuit.Json
