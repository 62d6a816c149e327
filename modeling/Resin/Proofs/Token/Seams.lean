import Resin.Proofs.Print.Spelling

/-!
# Seams between texts

A token is read without regard to what lies beyond the next separator. So a text can be cut behind a
token, and a line can be put behind it, without changing what is read before.

* `Lexeme.front_seam`: the lexeme at the front of a text is the same when what follows further on is
  replaced, by nothing or by something that begins with a separator;
* `Lexeme.front_bounded`: no word goes on behind a token, so that a text may be cut there.
-/

namespace Resin

open Text

/-! ## Seams -/

/-- The text is empty or begins with a separator. -/
def Ended (rest : List Char) : Prop :=
  ∀ c, rest.head? = some c → Cursor.isSeparator c = true

/-- No word goes on across the seam between two texts. -/
def Divides (before after : List Char) : Prop :=
  ∀ c d, before.getLast? = some c → after.head? = some d → Lexeme.isWordChar c = true →
    Lexeme.isWordChar d = false

theorem ended_nil : Ended [] := by
  simp [Ended]

theorem divides_nil_right (before : List Char) : Divides before [] := by
  simp [Divides]

/-- Only the end of the text before a seam counts. -/
theorem Divides.of_suffix {before before' after : List Char} (h : Divides before after)
    (hsuffix : before' <:+ before) : Divides before' after := by
  obtain ⟨front, rfl⟩ := hsuffix
  intro c d hc
  exact h c d (by rw [List.getLast?_append, hc]; rfl)

/-- What holds of no separator does not hold of the character behind a seam. -/
theorem Ended.not_class {rest : List Char} (h : Ended rest) {P : Char → Bool}
    (hP : [' ', '\t', '\r', '\n', '\x0c'].all (fun c => P c = false) = true) :
    ∀ c, rest.head? = some c → P c = false := by
  intro c hc
  have hsep := h c hc
  have hall := List.all_eq_true.1 hP
  simp only [Cursor.isSeparator, Bool.or_eq_true, beq_iff_eq] at hsep
  rcases hsep with (((rfl | rfl) | rfl) | rfl) | rfl <;>
    exact of_decide_eq_true (hall _ (by simp))

/-- A run that ends in front of a seam is the same with another text behind the seam. -/
theorem takeWhile_seam {P : Char → Bool} {p x y : List Char}
    (hlen : ((p ++ x).takeWhile P).length ≤ p.length)
    (hy : ∀ c, y.head? = some c → P c = false) :
    (p ++ y).takeWhile P = (p ++ x).takeWhile P := by
  induction p with
  | nil =>
    rw [List.nil_append, List.length_nil, Nat.le_zero, List.length_eq_zero_iff] at hlen
    rw [List.nil_append, List.nil_append, hlen]
    cases y with
    | nil => rfl
    | cons c y => simp [hy c rfl]
  | cons c p ih =>
    simp only [List.cons_append, List.takeWhile_cons] at hlen ⊢
    split
    · next hc =>
      simp only [hc, if_true, List.length_cons, Nat.add_le_add_iff_right] at hlen
      rw [ih hlen]
    · rfl

/-- A cut in front of a seam is the same with another text behind the seam. -/
theorem cut?_seam {mark p x before after : List Char} (hmark : mark ≠ [])
    (h : cut? mark (p ++ x) = some (before, after))
    (hlen : before.length + mark.length ≤ p.length) :
    ∃ q, p = before ++ mark ++ q ∧ after = q ++ x ∧
      ∀ y, cut? mark (p ++ y) = some (before, q ++ y) := by
  -- as far as a mark fits in front of the seam, the text behind it plays no part
  have hlocal : ∀ {p z w : List Char}, mark.length ≤ p.length → mark <+: p ++ z →
      mark <+: p ++ w := fun hle hpre =>
    (List.prefix_of_prefix_length_le hpre (List.prefix_append _ _) hle).trans
      (List.prefix_append _ _)
  induction p generalizing before with
  | nil =>
    have := List.length_pos_iff.2 hmark
    simp only [List.length_nil] at hlen
    omega
  | cons c p ih =>
    simp only [List.cons_append, cut?] at h
    split at h
    · next hp =>
      simp only [Option.some.injEq, Prod.mk.injEq] at h
      obtain ⟨rfl, rfl⟩ := h
      rw [List.isPrefixOf_iff_prefix, ← List.cons_append] at hp
      simp only [List.length_nil, Nat.zero_add] at hlen
      obtain ⟨q, hq⟩ := List.prefix_of_prefix_length_le hp (List.prefix_append _ _) hlen
      refine ⟨q, by rw [List.nil_append, hq], ?_, fun y => ?_⟩
      · rw [← List.cons_append, ← hq, List.append_assoc, List.drop_left]
      · have hp' := hlocal (w := y) hlen hp
        simp only [List.cons_append, cut?]
        rw [← List.cons_append, if_pos (List.isPrefixOf_iff_prefix.2 hp'), ← hq, List.append_assoc,
          List.drop_left]
    · next hp =>
      obtain ⟨⟨b, a⟩, hcut, heq⟩ := Option.map_eq_some_iff.1 h
      simp only [Prod.mk.injEq] at heq
      obtain ⟨rfl, rfl⟩ := heq
      simp only [List.length_cons] at hlen
      obtain ⟨q, rfl, rfl, hcut'⟩ := ih hcut (by omega)
      refine ⟨q, by simp, rfl, fun y => ?_⟩
      have hp' : ¬ mark.isPrefixOf (c :: (b ++ mark ++ q ++ y)) = true := by
        intro hpre
        rw [List.isPrefixOf_iff_prefix, ← List.cons_append] at hpre
        refine hp (List.isPrefixOf_iff_prefix.2 ?_)
        rw [← List.cons_append]
        exact hlocal (by simp; omega) hpre
      simp only [List.cons_append, cut?]
      rw [if_neg hp', hcut' y]
      rfl

theorem Symbol.prefix_of_longest? {cs : List Char} {s : Symbol}
    (h : Symbol.longest? cs = some s) : s.spelling.toList <+: cs :=
  List.isPrefixOf_iff_prefix.1
    (List.find?_some (p := fun t : Symbol => t.spelling.toList.isPrefixOf cs) h)

/-- A symbol found first is also found first among fewer, if it is one of them. -/
theorem Symbol.longest?_of_imp {cs cs' : List Char} {s : Symbol} (h : Symbol.longest? cs = some s)
    (hs : s.spelling.toList <+: cs')
    (himp : ∀ t : Symbol, t.spelling.toList <+: cs' → t.spelling.toList <+: cs) :
    Symbol.longest? cs' = some s := by
  unfold Symbol.longest? at h ⊢
  rw [List.find?_eq_some_iff_append] at h ⊢
  obtain ⟨-, before, after, hlist, hnone⟩ := h
  refine ⟨List.isPrefixOf_iff_prefix.2 hs, before, after, hlist, fun t ht => ?_⟩
  have hnot := hnone t ht
  simp only [Bool.not_eq_true', Bool.eq_false_iff] at hnot ⊢
  intro hp
  exact hnot (List.isPrefixOf_iff_prefix.2 (himp t (List.isPrefixOf_iff_prefix.1 hp)))

/-! ## Lexemes at a seam -/

namespace Lexeme

variable {first : Char} {p x y : List Char} {token : Token} {n : Nat}

theorem word_seam (hy : Ended y) (hn : (word first (p ++ x)).more ≤ p.length) :
    word first (p ++ y) = word first (p ++ x) := by
  unfold word at hn ⊢
  rw [takeWhile_seam hn (hy.not_class (by decide))]

theorem number_seam (hy : Ended y) (hn : (number first (p ++ x)).more ≤ p.length) :
    number first (p ++ y) = number first (p ++ x) := by
  unfold number at hn ⊢
  have hwhole : ((p ++ x).takeWhile Char.isDigit).length ≤ p.length := by
    refine Nat.le_trans ?_ hn
    dsimp only
    split
    · dsimp only
      omega
    · exact Nat.le_refl _
  rw [takeWhile_seam hwhole (hy.not_class (by decide))]
  generalize (p ++ x).takeWhile Char.isDigit = whole at hn hwhole
  simp only [List.drop_append_of_le_length hwhole] at hn ⊢
  generalize hleft : p.drop whole.length = left at hn
  have hlength : left.length = p.length - whole.length := by rw [← hleft, List.length_drop]
  cases left with
  | nil =>
    -- the digits reach up to the seam, and no point follows on either side
    have hx : ∀ after, x ≠ '.' :: after := by
      rintro after rfl
      simp only [List.nil_append, List.length_nil] at hn hlength
      omega
    have hy' : ∀ after, y ≠ '.' :: after := by
      rintro after rfl
      exact absurd (hy '.' rfl) (by decide)
    simp only [List.nil_append]
  | cons c left =>
    simp only [List.cons_append, List.length_cons] at hn hlength ⊢
    split
    · next after heq =>
      simp only [List.cons.injEq] at heq
      obtain ⟨rfl, rfl⟩ := heq
      simp only at hn
      rw [takeWhile_seam (x := x) (by omega) (hy.not_class (by decide))]
      rfl
    · next hpoint =>
      split
      · next after heq =>
        simp only [List.cons.injEq] at heq
        exact absurd (by rw [heq.1]) (hpoint (left ++ y))
      · rfl

theorem quoted_seam {quote : Quote} (h : quoted quote (p ++ x) = ⟨.ok token, n⟩)
    (hn : n ≤ p.length) : quoted quote (p ++ y) = ⟨.ok token, n⟩ := by
  unfold quoted at h ⊢
  cases hcut : cut? [quote.char] (p ++ x) with
  | none =>
    rw [hcut] at h
    cases h
  | some parts =>
    obtain ⟨content, after⟩ := parts
    rw [hcut] at h
    cases h
    obtain ⟨q, -, -, hcut'⟩ := cut?_seam (by simp) hcut hn
    rw [hcut' y]

/-- A raw block in front of a text: its opening with blanks in it, its code up to the first mark
that closes it, and what follows. -/
def RawText (blanks code after : List Char) : List Char :=
  'j' :: 's' :: blanks ++ ':' :: '~' :: (code ++ ['~', ':'] ++ after)

theorem raw_ok_cases {rest : List Char} (h : raw rest = ⟨.ok token, n⟩) :
    ∃ blanks code after, rest = RawText blanks code after ∧ (∀ c ∈ blanks, isBlank c = true) ∧
      cut? ['~', ':'] (code ++ ['~', ':'] ++ after) = some (code, after) ∧
      token = .raw (String.ofList code) ∧ n = blanks.length + code.length + 6 := by
  unfold raw at h
  split at h
  · next tail =>
    split at h
    · next body htrim =>
      cases hcut : cut? ['~', ':'] body with
      | none =>
        rw [hcut] at h
        cases h
      | some parts =>
        obtain ⟨code, after⟩ := parts
        rw [hcut] at h
        obtain rfl := eq_append_of_cut? hcut
        have htail := List.takeWhile_append_dropWhile (p := isBlank) (l := tail)
        rw [show tail.dropWhile isBlank = _ from htrim] at htail
        refine ⟨tail.takeWhile isBlank, code, after, by rw [RawText, List.cons_append,
          List.cons_append, htail], List.all_eq_true.1 List.all_takeWhile, hcut, ?_, ?_⟩
        · simp only [Lexeme.mk.injEq, Except.ok.injEq] at h
          exact h.1.symm
        · simp only [Lexeme.mk.injEq] at h
          have hlen := congrArg List.length htail
          simp only [List.length_append, List.length_cons, List.length_nil] at hlen
          rw [← h.2, List.length_cons, List.length_cons]
          omega
    · cases h
  · cases h

theorem raw_rawText {blanks code after : List Char} (hblanks : ∀ c ∈ blanks, isBlank c = true)
    (hcut : cut? ['~', ':'] (code ++ ['~', ':'] ++ after) = some (code, after)) :
    raw (RawText blanks code after) =
      ⟨.ok (.raw (String.ofList code)), blanks.length + code.length + 6⟩ := by
  have htrim : trimStart (blanks ++ ':' :: '~' :: (code ++ ['~', ':'] ++ after)) =
      ':' :: '~' :: (code ++ ['~', ':'] ++ after) := by
    unfold trimStart
    rw [List.dropWhile_append_of_pos hblanks]
    rfl
  simp only [RawText, List.cons_append, raw, htrim, hcut]
  simp
  omega

theorem raw_seam (h : raw (p ++ x) = ⟨.ok token, n⟩) (hn : n ≤ p.length) :
    raw (p ++ y) = ⟨.ok token, n⟩ := by
  obtain ⟨blanks, code, after, htext, hblanks, hcut, rfl, rfl⟩ := raw_ok_cases h
  -- the block ends in front of the seam
  have hsplit : p ++ x = ('j' :: 's' :: blanks ++ ':' :: '~' :: (code ++ ['~', ':'])) ++ after := by
    rw [htext, RawText]
    simp
  obtain ⟨q, hp⟩ := List.prefix_of_prefix_length_le ⟨after, hsplit.symm⟩ (List.prefix_append p x)
    (by simp; omega)
  rw [← hp, List.append_assoc, List.append_cancel_left_eq] at hsplit
  rw [← hsplit, ← List.append_assoc] at hcut
  obtain ⟨q', hq, -, hcut'⟩ := cut?_seam (by simp) hcut (by simp)
  obtain rfl := List.append_cancel_left hq
  have hy := hcut' y
  rw [List.append_assoc] at hy
  rw [← raw_rawText hblanks hy, ← hp, RawText]
  simp

/-- The spelling of a symbol stops in front of a separator. -/
theorem spelling_prefix_seam {s : Symbol} (hy : Ended y) (h : s.spelling.toList <+: p ++ y) :
    s.spelling.toList <+: p := by
  by_cases hlen : s.spelling.toList.length ≤ p.length
  · exact List.prefix_of_prefix_length_le h (List.prefix_append p y) hlen
  · cases y with
    | nil => rwa [List.append_nil] at h
    | cons c y =>
      -- the separator would be part of the spelling
      have hc : p ++ [c] <+: s.spelling.toList :=
        List.prefix_of_prefix_length_le ⟨y, by simp⟩ h (by simp; omega)
      have hmem : c ∈ s.spelling.toList := hc.subset (by simp)
      have hnot := hy.not_class (P := fun d => s.spelling.toList.contains d)
        (by cases s <;> decide) c rfl
      rw [List.contains_eq_mem, decide_eq_false_iff_not] at hnot
      exact absurd hmem hnot

theorem takeWhile_word_of_divides {before : List Char} (hx : Divides before x) {word : List Char}
    (hword : word <:+ before) (hne : word ≠ []) (hall : ∀ c ∈ word, isWordChar c = true) :
    x.takeWhile isWordChar = [] := by
  cases x with
  | nil => rfl
  | cons d x =>
    have hlast : word.getLast? = some (word.getLast hne) := List.getLast?_eq_some_getLast hne
    have hd := hx.of_suffix hword _ d hlast rfl (hall _ (List.getLast_mem hne))
    rw [List.takeWhile_cons_of_neg (by simp [hd])]

theorem symbol_seam (h : symbol first (p ++ x) = ⟨.ok token, n⟩) (hn : n ≤ p.length)
    (hx : Divides (first :: p) x) (hy : Ended y) : symbol first (p ++ y) = ⟨.ok token, n⟩ := by
  unfold symbol at h ⊢
  split at h
  · next hinput =>
    obtain ⟨rfl, hword⟩ := hinput
    cases h
    rw [takeWhile_seam (by rw [hword]; exact hn) (hy.not_class (by decide)),
      if_pos ⟨rfl, hword⟩]
  · next hinput =>
    have hinput' : ¬ (first = ':' ∧ (p ++ y).takeWhile isWordChar = "input".toList) := by
      rintro ⟨rfl, hword⟩
      refine hinput ⟨rfl, ?_⟩
      have htake := takeWhile_seam (p := p) (x := [])
        (by simpa using (List.takeWhile_prefix _).length_le)
        (hy.not_class (P := isWordChar) (by decide))
      rw [htake, List.append_nil] at hword
      rw [List.takeWhile_append]
      split
      · next hfull =>
        have hp : p = "input".toList := by
          rw [← hword, (List.takeWhile_prefix _).eq_of_length hfull]
        subst hp
        rw [takeWhile_word_of_divides hx (List.suffix_cons _ _) (by decide)
          (List.all_eq_true.1 (by decide))]
        rfl
      · exact hword
    rw [if_neg hinput']
    cases hs : Symbol.longest? (first :: (p ++ x)) with
    | none =>
      rw [hs] at h
      cases h
    | some s =>
      rw [hs] at h
      cases h
      have hlong : Symbol.longest? (first :: (p ++ y)) = some s := by
        refine Symbol.longest?_of_imp hs ?_ fun t ht => ?_
        · have hpre := Symbol.prefix_of_longest? hs
          rw [← List.cons_append] at hpre ⊢
          refine (List.prefix_of_prefix_length_le hpre (List.prefix_append _ x) ?_).trans
            (List.prefix_append _ y)
          rw [String.length_toList, List.length_cons]
          omega
        · rw [← List.cons_append] at ht ⊢
          exact (spelling_prefix_seam hy ht).trans (List.prefix_append _ _)
      rw [hlong]

/-- What is read at the front of a text does not depend on the text behind a seam further on. -/
theorem front_seam (h : front first (p ++ x) = ⟨.ok token, n⟩) (hn : n ≤ p.length)
    (hx : Divides (first :: p) x) (hy : Ended y) : front first (p ++ y) = ⟨.ok token, n⟩ := by
  unfold front at h ⊢
  split
  · next hfirst =>
    rw [if_pos hfirst] at h
    rw [word_seam hy (by rw [h]; exact hn), h]
  · next hfirst =>
    rw [if_neg hfirst] at h
    split
    · next hdigit =>
      rw [if_pos hdigit] at h
      rw [number_seam hy (by rw [h]; exact hn), h]
    · next hdigit =>
      rw [if_neg hdigit] at h
      cases hquote : Quote.ofChar? first with
      | some quote =>
        rw [hquote] at h
        exact quoted_seam h hn
      | none =>
        rw [hquote] at h
        simp only at h ⊢
        split
        · next hat =>
          rw [if_pos hat] at h
          exact raw_seam h hn
        · next hat =>
          rw [if_neg hat] at h
          exact symbol_seam h hn hx hy

/-! ## Where a lexeme ends -/

/-- No word goes on behind a text that does not end in a word. -/
theorem divides_of_getLast? {before : List Char} {c : Char} (hlast : before.getLast? = some c)
    (hc : isWordChar c = false) (after : List Char) : Divides before after := by
  intro c' _ hc' _ hword
  rw [hlast, Option.some.injEq] at hc'
  rw [← hc', hc] at hword
  cases hword

theorem divides_of_forall {before : List Char} (h : ∀ c ∈ before, isWordChar c = false)
    (after : List Char) : Divides before after := by
  intro c _ hc _ hword
  rw [h c (List.mem_of_getLast? hc)] at hword
  cases hword

theorem divides_dropWhile (before rest : List Char) :
    Divides before (rest.dropWhile isWordChar) := by
  intro _ d _ hd _
  have hnot := List.head?_dropWhile_not isWordChar rest
  rwa [hd] at hnot

/-- The characters of a lexeme end in the text, and no word goes on behind them. -/
def Bounded (first : Char) (rest : List Char) (n : Nat) : Prop :=
  ∃ more after, rest = more ++ after ∧ more.length = n ∧ Divides (first :: more) after

theorem number_bounded {rest : List Char} (hfirst : first.isDigit = true)
    (h : number first rest = ⟨.ok token, n⟩) :
    Bounded first rest n := by
  have hnot (digits : List Char) : ∀ c ∈ digits.takeWhile Char.isDigit, isWordChar c = false :=
    fun c hc => isWordChar_of_isDigit (List.all_eq_true.1 List.all_takeWhile c hc)
  unfold number at h
  dsimp only at h
  split at h
  · next after hpoint =>
    cases h
    refine ⟨rest.takeWhile Char.isDigit ++ '.' :: after.takeWhile Char.isDigit,
      after.dropWhile Char.isDigit, ?_, by simp; omega, divides_of_forall ?_ _⟩
    · have hrest := List.prefix_iff_eq_append.1 (List.takeWhile_prefix (l := rest) Char.isDigit)
      rw [hpoint] at hrest
      rw [List.append_assoc, List.cons_append, List.takeWhile_append_dropWhile, hrest]
    · intro c hc
      simp only [List.mem_cons, List.mem_append] at hc
      rcases hc with rfl | hc | rfl | hc
      · exact isWordChar_of_isDigit hfirst
      · exact hnot _ c hc
      · decide
      · exact hnot _ c hc
  · cases h
    refine ⟨_, _, List.takeWhile_append_dropWhile.symm, rfl, divides_of_forall ?_ _⟩
    intro c hc
    rcases List.mem_cons.1 hc with rfl | hc
    · exact isWordChar_of_isDigit hfirst
    · exact hnot _ c hc

theorem quoted_bounded {quote : Quote} {rest : List Char}
    (h : quoted quote rest = ⟨.ok token, n⟩) :
    Bounded first rest n := by
  unfold quoted at h
  split at h
  · next content after hcut =>
    cases h
    refine ⟨content ++ [quote.char], after, eq_append_of_cut? hcut, by simp,
      divides_of_getLast? (c := quote.char) ?_ (by cases quote <;> decide) _⟩
    rw [← List.cons_append, List.getLast?_concat]
  · cases h

theorem raw_bounded {rest : List Char} (h : raw rest = ⟨.ok token, n⟩) :
    Bounded first rest n := by
  obtain ⟨blanks, code, after, rfl, -, -, -, rfl⟩ := raw_ok_cases h
  refine ⟨'j' :: 's' :: blanks ++ ':' :: '~' :: (code ++ ['~', ':']), after, by simp [RawText],
    by simp; omega, divides_of_getLast? (c := ':') (by simp [List.getLast?_cons]) (by decide) _⟩

theorem symbol_bounded {rest : List Char} (hfirst : isWordChar first = false)
    (h : symbol first rest = ⟨.ok token, n⟩) :
    Bounded first rest n := by
  unfold symbol at h
  split at h
  · next hinput =>
    cases h
    exact ⟨_, _, List.takeWhile_append_dropWhile.symm, by rw [hinput.2]; rfl,
      divides_dropWhile _ _⟩
  · split at h
    · next s hs =>
      cases h
      obtain ⟨after, hafter⟩ := Symbol.prefix_of_longest? hs
      obtain ⟨first', more, hspelling, -⟩ := s.spelling_cons
      rw [hspelling, List.cons_append, List.cons.injEq] at hafter
      obtain ⟨rfl, rfl⟩ := hafter
      refine ⟨more, after, rfl, ?_, divides_of_forall ?_ _⟩
      · rw [← String.length_toList, hspelling]
        rfl
      · have hsymbol : s.spelling.toList.all (fun c => !isWordChar c) = true := by
          cases s <;> decide
        rw [← hspelling]
        simpa using hsymbol
    · cases h

/-- A token ends in the text, and no word goes on behind it. -/
theorem front_bounded {rest : List Char} (h : front first rest = ⟨.ok token, n⟩) :
    Bounded first rest n := by
  unfold front at h
  split at h
  · cases h
    exact ⟨_, _, List.takeWhile_append_dropWhile.symm, rfl, divides_dropWhile _ _⟩
  · split at h
    · next hdigit => exact number_bounded hdigit h
    · split at h
      · exact quoted_bounded h
      · split at h
        · exact raw_bounded h
        · next hword _ _ _ _ => exact symbol_bounded (by simpa using hword) h

end Lexeme

end Resin
