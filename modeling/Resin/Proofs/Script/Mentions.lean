import Resin.Compile
import Resin.Proofs.Grammar.Contents
import Resin.Proofs.Scan.Basic

/-!
# Helpers that a script mentions

A preamble defines helpers, and a script that calls one relies on the preamble. The names of all
helpers begin with the same mark. So the helpers that a script calls can be read off its text: they
are the words that begin with the mark (`mentions`).

A fragment is *marked* if these words are names of helpers, and if its features are those that the
words ask for. Where no word goes on across a seam, the words of two texts are those of the one and
then those of the other (`mentions_append`), so marked fragments can be put together
(`marked_of_parts`).
-/

namespace Resin

open Lexeme

/-! ## Seams -/

theorem divides_of_last {a b : List Char}
    (h : a.getLast?.all (fun c => !isWordChar c) = true) : Divides a b := by
  intro c d hc _ hword
  rw [hc] at h
  simp [hword] at h

theorem divides_of_first {a b : List Char}
    (h : b.head?.all (fun c => !isWordChar c) = true) : Divides a b := by
  intro c d _ hd _
  rw [hd] at h
  simpa using h

/-! ## Words that begin with the mark -/

/-- What the names of all helpers begin with. -/
def helperMark : List Char := "__epx".toList

/-- The stretches of a text that begin with the mark, each as long as the word goes on. -/
def mentions : List Char → List String
  | [] => []
  | c :: cs =>
    if helperMark.isPrefixOf (c :: cs) then
      String.ofList ((c :: cs).takeWhile isWordChar) :: mentions cs
    else mentions cs

variable {a b w : List Char}

/-- A word in front of a seam does not reach across it. -/
theorem prefix_append_iff_of_divides (h : Divides a b) (ha : a ≠ [])
    (hw : ∀ c ∈ w, isWordChar c = true) : w <+: a ++ b ↔ w <+: a := by
  refine ⟨fun hpre => ?_, fun hpre => hpre.trans (List.prefix_append a b)⟩
  by_cases hlen : w.length ≤ a.length
  · exact List.prefix_of_prefix_length_le hpre (List.prefix_append a b) hlen
  · -- else the characters on both sides of the seam belong to the word
    obtain ⟨rest, rfl⟩ :=
      List.prefix_of_prefix_length_le (List.prefix_append a b) hpre (by omega)
    rw [List.prefix_append_right_inj] at hpre
    cases rest with
    | nil => simp at hlen
    | cons d rest =>
      obtain ⟨tail, rfl⟩ := hpre
      have hlast := h _ d (List.getLast?_eq_some_getLast ha) rfl (hw _ (by simp))
      rw [hw d (by simp)] at hlast
      cases hlast

theorem takeWhile_append_of_divides (h : Divides a b) (ha : a ≠ []) :
    (a ++ b).takeWhile isWordChar = a.takeWhile isWordChar := by
  rw [List.takeWhile_append]
  split
  · next hlength =>
    have hall : a.takeWhile isWordChar = a := (List.takeWhile_prefix _).eq_of_length hlength
    have hword : ∀ c ∈ a, isWordChar c = true := by
      rw [← hall]
      exact List.all_eq_true.1 List.all_takeWhile
    rw [takeWhile_word_of_divides h (List.suffix_refl a) ha hword, List.append_nil, hall]
  · rfl

theorem mentions_append (h : Divides a b) : mentions (a ++ b) = mentions a ++ mentions b := by
  induction a with
  | nil => rfl
  | cons c a ih =>
    have hmark : helperMark.isPrefixOf (c :: a ++ b) = helperMark.isPrefixOf (c :: a) := by
      rw [Bool.eq_iff_iff, List.isPrefixOf_iff_prefix, List.isPrefixOf_iff_prefix]
      exact prefix_append_iff_of_divides h (by simp) (List.all_eq_true.1 rfl)
    have hword := takeWhile_append_of_divides h (by simp)
    have hrest := ih (h.of_suffix (List.suffix_cons c a))
    rw [List.cons_append] at hmark hword ⊢
    rw [mentions, mentions, hmark, hword, hrest]
    split <;> rfl

theorem mentions_eq_nil_iff {cs : List Char} : mentions cs = [] ↔ ¬ helperMark <:+: cs := by
  induction cs with
  | nil => exact iff_of_true rfl (by decide)
  | cons c cs ih =>
    rw [mentions, List.infix_cons_iff, ← List.isPrefixOf_iff_prefix, not_or, ← ih]
    split
    · next hmark => simp [hmark]
    · next hmark => simp [hmark]

/-- A text mentions no helper. -/
def Clean (text : String) : Prop :=
  mentions text.toList = []

theorem clean_iff {text : String} : Clean text ↔ ¬ Occurs "__epx" text :=
  mentions_eq_nil_iff

theorem Clean.of_occurs {source text : String} (h : Clean source) (htext : Occurs text source) :
    Clean text := by
  rw [clean_iff] at h ⊢
  exact fun hmark => h (List.IsInfix.trans hmark htext)

/-- The mark does not begin in a text without underscores. -/
theorem isInfix_append_of_not_mem (ha : '_' ∉ a) : helperMark <:+: a ++ b ↔ helperMark <:+: b := by
  induction a with
  | nil => rfl
  | cons c a ih =>
    rw [List.mem_cons, not_or] at ha
    rw [List.cons_append, List.infix_cons_iff, ih ha.2]
    refine or_iff_right fun hpre => ha.1 ?_
    exact (List.cons_prefix_cons.1 hpre).1

theorem clean_of_not_mem {text : String} (h : '_' ∉ text.toList) : Clean text := by
  rw [Clean, mentions_eq_nil_iff, ← List.append_nil text.toList, isInfix_append_of_not_mem h]
  decide

/-! ## Literals -/

/-- A character stands in a string literal as it is, or it is escaped by a backslash and characters
that are no underscores. -/
theorem escapeChar_cases (c : Char) : Literal.escapeChar c = [c] ∨
    '_' ∉ Literal.escapeChar c ∧ ∃ rest, Literal.escapeChar c = '\\' :: rest := by
  have hdigit (n : Nat) : '_' ≠ Nat.digitChar n := fun h => Nat.digitChar_ne _ (by decide) h.symm
  unfold Literal.escapeChar
  repeat' split
  · exact .inr ⟨by decide, _, rfl⟩
  · exact .inr ⟨by decide, _, rfl⟩
  · exact .inr ⟨by decide, _, rfl⟩
  · exact .inr ⟨by decide, _, rfl⟩
  · exact .inr ⟨by decide, _, rfl⟩
  · exact .inr ⟨by simp [hdigit], _, rfl⟩
  · exact .inl rfl

/-- Characters without a backslash in front of a string literal's text are in front of the text. -/
theorem prefix_of_prefix_flatMap_escapeChar {cs : List Char} (hw : '\\' ∉ w)
    (h : w <+: cs.flatMap Literal.escapeChar) : w <+: cs := by
  induction cs generalizing w with
  | nil => exact h
  | cons c cs ih =>
    rw [List.flatMap_cons] at h
    cases w with
    | nil => exact List.nil_prefix
    | cons d w =>
      rw [List.mem_cons, not_or] at hw
      rcases escapeChar_cases c with hplain | ⟨-, rest, hescaped⟩
      · rw [hplain, List.singleton_append, List.cons_prefix_cons] at h
        rw [List.cons_prefix_cons]
        exact ⟨h.1, ih hw.2 h.2⟩
      · rw [hescaped, List.cons_append, List.cons_prefix_cons] at h
        exact absurd h.1.symm hw.1

theorem isInfix_of_isInfix_flatMap_escapeChar {cs : List Char}
    (h : helperMark <:+: cs.flatMap Literal.escapeChar) : helperMark <:+: cs := by
  induction cs with
  | nil => exact h
  | cons c cs ih =>
    by_cases hpre : helperMark <+: (c :: cs).flatMap Literal.escapeChar
    · exact (prefix_of_prefix_flatMap_escapeChar (by decide) hpre).isInfix
    · apply List.infix_cons
      apply ih
      rw [List.flatMap_cons] at h hpre
      rcases escapeChar_cases c with hplain | ⟨hnot, -⟩
      · rw [hplain, List.singleton_append] at h hpre
        exact (List.infix_cons_iff.1 h).resolve_left hpre
      · exact (isInfix_append_of_not_mem hnot).1 h

theorem Clean.quoted {text : String} (h : Clean text) : Clean (Literal.quoted text) := by
  have hbody : mentions (text.toList.flatMap Literal.escapeChar) = [] := by
    rw [Clean, mentions_eq_nil_iff] at h
    rw [mentions_eq_nil_iff]
    exact fun hmark => h (isInfix_of_isInfix_flatMap_escapeChar hmark)
  have hopen := mentions_append (b := text.toList.flatMap Literal.escapeChar)
    (divides_of_last (a := ['\x22']) (by decide))
  rw [Clean, Literal.quoted, String.toList_ofList, Literal.quotedChars,
    mentions_append (divides_of_first (by decide)), ← List.singleton_append, hopen, hbody]
  rfl

/-- Characters without a backslash in front of a template's text are in front of the text. -/
theorem prefix_of_prefix_templateChars {cs : List Char} (hw : '\\' ∉ w)
    (h : w <+: Literal.templateChars cs) : w <+: cs := by
  fun_induction Literal.templateChars cs generalizing w with
  | case1 => exact h
  | case2 cs ih =>
    rcases List.prefix_cons_iff.1 h with rfl | ⟨t, rfl, -⟩
    · exact List.nil_prefix
    · simp at hw
  | case3 c cs _ _ ih =>
    rcases List.prefix_cons_iff.1 h with rfl | ⟨t, rfl, -⟩
    · exact List.nil_prefix
    · simp at hw
  | case4 c cs _ _ ih =>
    rcases List.prefix_cons_iff.1 h with rfl | ⟨t, rfl, ht⟩
    · exact List.nil_prefix
    · rw [List.mem_cons, not_or] at hw
      exact List.cons_prefix_cons.2 ⟨rfl, ih hw.2 ht⟩

theorem isInfix_of_isInfix_templateChars {cs : List Char}
    (h : helperMark <:+: Literal.templateChars cs) : helperMark <:+: cs := by
  fun_induction Literal.templateChars cs with
  | case1 => exact h
  | case2 cs ih =>
    -- the three characters in front are no underscores
    have hrest := (isInfix_append_of_not_mem (a := ['\\', '$', '{']) (by decide)).1 h
    exact List.infix_cons (List.infix_cons (ih hrest))
  | case3 c cs _ hc ih =>
    have hnot : '_' ∉ ['\\', c] := by
      rcases hc with rfl | rfl <;> decide
    exact List.infix_cons (ih ((isInfix_append_of_not_mem (a := ['\\', c]) hnot).1 h))
  | case4 c cs hpair hc ih =>
    rcases List.infix_cons_iff.1 h with hpre | hin
    · rw [List.infix_cons_iff]
      obtain ⟨hfirst, hrest⟩ := List.cons_prefix_cons.1 hpre
      exact .inl (List.cons_prefix_cons.2
        ⟨hfirst, prefix_of_prefix_templateChars (by decide) hrest⟩)
    · exact List.infix_cons (ih hin)

theorem Clean.template {text : String} (h : Clean text) : Clean (Literal.template text) := by
  rw [Clean, mentions_eq_nil_iff] at h ⊢
  rw [Literal.template, String.toList_ofList]
  exact fun hmark => h (isInfix_of_isInfix_templateChars hmark)

/-! ## Marked fragments -/

/-- The helpers that keep the declared types. -/
def typeHelpers : List String :=
  ["__epx_register", "__epx_validate", "__epx_forget", "__epx_returns"]

/-- The helper that reads a line of input. -/
def inputHelper : String := "__epx_input"

/-- The preambles that define the helpers among some words. -/
def Features.defining (words : List String) : Features :=
  ⟨words.any typeHelpers.contains, words.contains inputHelper⟩

theorem Features.defining_append (xs ys : List String) :
    defining (xs ++ ys) = (defining xs).union (defining ys) := by
  simp [defining, union]

namespace Fragment

/-- The words of a fragment that begin with the mark are names of helpers, and its features are the
preambles that define them. -/
structure Marked (f : Fragment) : Prop where
  known : ∀ w ∈ mentions f.code.toList, w ∈ inputHelper :: typeHelpers
  features : f.features = .defining (mentions f.code.toList)

/-- Whether a fragment is marked, for pieces of a script that are always the same. -/
def isMarked (f : Fragment) : Bool :=
  (mentions f.code.toList).all (inputHelper :: typeHelpers).contains &&
    f.features == .defining (mentions f.code.toList)

theorem marked_of_isMarked {f : Fragment} (h : f.isMarked = true) : f.Marked := by
  simp only [isMarked, Bool.and_eq_true, List.all_eq_true, List.contains_iff_mem, beq_iff_eq] at h
  exact ⟨h.1, h.2⟩

theorem marked_text {text : String} (h : Clean text) : (Fragment.text text).Marked := by
  constructor
  · rw [show mentions (Fragment.text text).code.toList = [] from h]
    exact List.forall_mem_nil _
  · rw [show mentions (Fragment.text text).code.toList = [] from h]
    rfl

theorem Marked.append {f g : Fragment} (hf : f.Marked) (hg : g.Marked)
    (hseam : Divides f.code.toList g.code.toList) : (f ++ g).Marked := by
  have hmentions : mentions (f ++ g).code.toList =
      mentions f.code.toList ++ mentions g.code.toList := by
    rw [code_append, String.toList_append, mentions_append hseam]
  constructor
  · rw [hmentions, List.forall_mem_append]
    exact ⟨hf.known, hg.known⟩
  · rw [hmentions, Features.defining_append, features_append, hf.features, hg.features]

/-! ## Putting fragments together -/

/-- A part of a fragment: characters that are always the same, or a fragment that is put in, maybe
one that is known not to end in a word. -/
inductive Part where
  | own (f : Fragment)
  | put (f : Fragment)
  | shut (f : Fragment)

namespace Part

def fragment : Part → Fragment
  | .own f | .put f | .shut f => f

/-- Whether no word can begin before a part and go on in it. -/
def opensApart : Part → Bool
  | .own f => f.code.toList.head?.any (fun c => !isWordChar c)
  | .put _ | .shut _ => false

/-- Whether no word can go on behind a part. -/
def endsApart : Part → Bool
  | .own f => f.code.toList.getLast?.all (fun c => !isWordChar c)
  | .put _ => false
  | .shut _ => true

/-- Whether no word can go on from a part into those behind it. -/
def apart (part : Part) : List Part → Bool
  | [] => true
  | next :: _ => part.endsApart || next.opensApart

/-- Whether the parts that are always the same are marked, and words stay in the parts. -/
def fits : List Part → Bool
  | [] => true
  | .own f :: parts => f.isMarked && (Part.own f).apart parts && fits parts
  | part :: parts => part.apart parts && fits parts

/-- The parts put together. -/
def all : List Part → Fragment
  | [] => ""
  | part :: parts => part.fragment ++ all parts

/-- A fragment with parts behind it. -/
def after (first : Fragment) : List Part → Fragment
  | [] => first
  | part :: parts => after (first ++ part.fragment) parts

/-- The fragments that are put in are marked. -/
@[reducible] def PutsMarked : List Part → Prop
  | [] => True
  | .own _ :: parts => PutsMarked parts
  | .put f :: parts => f.Marked ∧ PutsMarked parts
  | .shut f :: parts =>
    f.Marked ∧ f.code.toList.getLast?.all (fun c => !isWordChar c) = true ∧ PutsMarked parts

theorem after_eq (first : Fragment) (parts : List Part) :
    after first parts = first ++ all parts := by
  induction parts generalizing first with
  | nil => exact (append_empty first).symm
  | cons part parts ih => rw [after, ih, all, append_assoc]

theorem head?_all_of_opensApart {part : Part} {parts : List Part} (h : part.opensApart = true) :
    (all (part :: parts)).code.toList.head?.all (fun c => !isWordChar c) = true := by
  cases part with
  | own f =>
    obtain ⟨c, hhead, hc⟩ := (Option.any_eq_true _ _).1 h
    rw [all, code_append, String.toList_append, List.head?_append, fragment, hhead]
    exact hc
  | put _ | shut _ => cases h

theorem divides_of_apart {part : Part} {parts : List Part} (h : part.apart parts = true)
    (hput : PutsMarked (part :: parts)) :
    Divides part.fragment.code.toList (all parts).code.toList := by
  cases parts with
  | nil => exact divides_nil_right _
  | cons next parts =>
    rcases Bool.or_eq_true_iff.1 h with hends | hopens
    · cases part with
      | own f => exact divides_of_last hends
      | put f => cases hends
      | shut f => exact divides_of_last hput.2.1
    · exact divides_of_first (head?_all_of_opensApart hopens)

theorem marked_all {parts : List Part} (h : fits parts = true) (hput : PutsMarked parts) :
    (all parts).Marked := by
  induction parts with
  | nil => exact marked_text rfl
  | cons part parts ih =>
    cases part with
    | own f =>
      simp only [fits, Bool.and_eq_true] at h
      exact (marked_of_isMarked h.1.1).append (ih h.2 hput) (divides_of_apart h.1.2 hput)
    | put f =>
      simp only [fits, Bool.and_eq_true] at h
      exact hput.1.append (ih h.2 hput.2) (divides_of_apart h.1 hput)
    | shut f =>
      simp only [fits, Bool.and_eq_true] at h
      exact hput.1.append (ih h.2 hput.2.2) (divides_of_apart h.1 hput)

end Part

/-- Parts that words stay in make a marked fragment. -/
theorem marked_of_parts (first : Part) (parts : List Part) (h : Part.fits (first :: parts) = true)
    (hput : Part.PutsMarked (first :: parts)) : (Part.after first.fragment parts).Marked := by
  rw [Part.after_eq]
  exact Part.marked_all h hput

/-- Marked fragments with a separator between them. -/
theorem marked_join {separator : String} {fs : List Fragment}
    (hsep : Part.fits [.put "", .own separator, .put ""] = true) (h : ∀ f ∈ fs, f.Marked) :
    (join separator fs).Marked := by
  induction fs with
  | nil => exact marked_text rfl
  | cons f fs ih =>
    rw [List.forall_mem_cons] at h
    cases fs with
    | nil =>
      rw [join_singleton]
      exact h.1
    | cons g fs =>
      rw [join_cons_cons]
      exact marked_of_parts (.put f) [.own separator, .put _] hsep ⟨h.1, ih h.2, trivial⟩

end Fragment

end Resin
