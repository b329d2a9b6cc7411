/-
# Names replaced in a text

A text in which some names are replaced by another one is scanned to the same
tokens, but for those names. The scanner looks further than a token in a few
places: a numeral may go on behind a point, a slash may begin a comment, and
an operator may be part of a longer one. But it never looks past the first
character of a word, and all of those are alike to it. So it is enough that
the texts are the same up to where words begin in both (`Lox.SameToWord`).

Key definitions: `Lox.beginsWord`, `Lox.SameToWord`, `Lox.IsName`, `Lox.replaceWords`.
Key theorems: `Lox.chunk?_take_append`, `Lox.Scans.identifier_iff`, `Lox.Scans.replace`.
-/
import Lox.Proofs.Scanner.Seam
import Lox.Proofs.Scanner.Words

namespace Lox

open Scanner Text

/-! ### Where words begin -/

/-- A word begins with the character. -/
def beginsWord (c : Char) : Bool :=
  startsWord c && !isSpace c && !isAsciiDigit c

section

variable {c : Char} {cs cs' : List Char} {p : Char → Bool}

theorem nextItem_word : nextItem (c :: cs) = .word ↔ beginsWord c = true := by
  rw [nextItem_cons]
  unfold beginsWord
  by_cases hcomment : c = '/' ∧ cs.head? = some '/'
  · rw [if_pos hcomment, hcomment.1]
    decide
  rw [if_neg hcomment]
  by_cases hspace : isSpace c = true
  · simp [hspace]
  rw [if_neg hspace]
  by_cases hquote : c = '"'
  · subst hquote
    decide
  rw [if_neg hquote]
  by_cases hdigit : isAsciiDigit c = true
  · simp [hdigit]
  rw [if_neg hdigit]
  simp only [hspace, hdigit]
  split <;> simp_all

theorem not_isSpace_of_beginsWord (h : beginsWord c = true) : isSpace c = false := by
  simp only [beginsWord, Bool.and_eq_true, Bool.not_eq_true'] at h
  exact h.1.2

theorem not_isAsciiDigit_of_beginsWord (h : beginsWord c = true) : isAsciiDigit c = false := by
  simp only [beginsWord, Bool.and_eq_true, Bool.not_eq_true'] at h
  exact h.2

theorem continuesWord_of_beginsWord (h : beginsWord c = true) : continuesWord c = true := by
  simp only [beginsWord, Bool.and_eq_true] at h
  exact continuesWord_of_startsWord h.1.1

theorem inComment_of_beginsWord (h : beginsWord c = true) : inComment c = true := by
  have hne : ∀ c', beginsWord c' = false → c ≠ c' := by
    rintro _ hc' rfl
    exact absurd h (by simp [hc'])
  simp [inComment, hne '\n' (by decide), hne '\x00' (by decide)]

/-- The texts are the same up to a place where words begin in both, if there is one. -/
inductive SameToWord : List Char → List Char → Prop
  | done : SameToWord [] []
  | word {c c' : Char} {cs cs' : List Char} : beginsWord c = true → beginsWord c' = true →
    SameToWord (c :: cs) (c' :: cs')
  | same {c : Char} {cs cs' : List Char} : SameToWord cs cs' → SameToWord (c :: cs) (c :: cs')

namespace SameToWord

theorem append (h : SameToWord cs cs') : ∀ front : List Char, SameToWord (front ++ cs) (front ++ cs')
  | [] => h
  | _ :: front => .same (h.append front)

/-- Both texts begin with words. -/
theorem of_words (h : nextItem cs = .word) (h' : nextItem cs' = .word) : SameToWord cs cs' := by
  cases cs with
  | nil => cases h
  | cons c cs =>
    cases cs' with
    | nil => cases h'
    | cons c' cs' => exact .word (nextItem_word.mp h) (nextItem_word.mp h')

/-- A character that begins no word comes next in both or in none. -/
theorem head?_eq (h : SameToWord cs cs') (hc : beginsWord c = false) :
    cs'.head? = some c ↔ cs.head? = some c := by
  cases h with
  | done | same _ => exact Iff.rfl
  | word hw hw' =>
    have hne : ∀ {c'}, beginsWord c' = true → c' ≠ c := by
      rintro _ hc' rfl
      exact absurd hc (by simp [hc'])
    simp [hne hw, hne hw']

theorem nextItem_eq (h : SameToWord cs cs') : nextItem (c :: cs') = nextItem (c :: cs) := by
  rw [nextItem_cons, nextItem_cons]
  simp only [h.head?_eq (c := '/') (by decide)]

/-- Characters of which none begins a word go as far in both, and leave texts that are the same up to
a word. -/
theorem spanLength_eq (h : SameToWord cs cs') (hp : ∀ c, beginsWord c = true → p c = false) :
    spanLength p cs' = spanLength p cs ∧
      SameToWord (cs.drop (spanLength p cs)) (cs'.drop (spanLength p cs)) := by
  induction h with
  | done => exact ⟨rfl, .done⟩
  | @word c c' cs cs' hw hw' =>
    rw [spanLength_cons, spanLength_cons, hp c hw, hp c' hw']
    exact ⟨rfl, .word hw hw'⟩
  | @same c cs cs' hs ih =>
    rw [spanLength_cons, spanLength_cons]
    split
    · exact ⟨congrArg (· + 1) ih.1, ih.2⟩
    · exact ⟨rfl, .same hs⟩

theorem numeralLength_eq (h : SameToWord cs cs') : numeralLength cs' = numeralLength cs := by
  obtain ⟨hwhole, hrest⟩ := h.spanLength_eq fun _ => not_isAsciiDigit_of_beginsWord
  unfold numeralLength
  dsimp only
  rw [hwhole]
  have hpoint : beginsWord '.' = false := by decide
  generalize cs.drop _ = rest at hrest
  generalize cs'.drop _ = rest' at hrest
  cases hrest with
  | done => rfl
  | @word c c' _ _ hw hw' =>
    have hne : ∀ {c}, beginsWord c = true → c ≠ '.' := by
      rintro _ hc rfl
      exact absurd hpoint (by simp [hc])
    simp [hne hw, hne hw']
  | @same c _ _ hs =>
    by_cases hc : c = '.'
    · subst hc
      simp only [(hs.spanLength_eq fun _ => not_isAsciiDigit_of_beginsWord).1]
    · simp [hc]

theorem isPrefixOf_eq (h : SameToWord cs cs') : ∀ {op : List Char}, (∀ c ∈ op, beginsWord c = false) →
    op.isPrefixOf cs' = op.isPrefixOf cs := by
  induction h with
  | done => exact fun _ => rfl
  | @word c c' cs cs' hw hw' =>
    intro op hop
    cases op with
    | nil => rfl
    | cons d op =>
      have hd := hop d List.mem_cons_self
      have hne : ∀ {c}, beginsWord c = true → (d == c) = false := by
        rintro c hc
        refine beq_false_of_ne ?_
        rintro rfl
        exact absurd hd (by simp [hc])
      simp [List.isPrefixOf, hne hw, hne hw']
  | same _ ih =>
    intro op hop
    cases op with
    | nil => rfl
    | cons d op =>
      simp only [List.isPrefixOf, ih fun c hc => hop c (List.mem_cons_of_mem _ hc)]

theorem operators_begin_no_word : ∀ op ∈ operators, ∀ c ∈ op.1, beginsWord c = false := by
  -- the table is searched, and not all characters
  have hall : (operators.all fun op => op.1.all fun c => !beginsWord c) = true := by decide
  intro op hop c hc
  have hchars := List.all_eq_true.mp hall op hop
  have hword := List.all_eq_true.mp hchars c hc
  simpa using hword

theorem operatorAt?_eq (h : SameToWord cs cs') : operatorAt? cs' = operatorAt? cs := by
  unfold operatorAt?
  have hsame : ∀ op ∈ operators, op.1.isPrefixOf cs' = op.1.isPrefixOf cs :=
    fun op hop => h.isPrefixOf_eq (operators_begin_no_word op hop)
  generalize operators = ops at hsame
  induction ops with
  | nil => rfl
  | cons op ops ih =>
    rw [List.find?_cons, List.find?_cons, hsame op List.mem_cons_self,
      ih fun op' h => hsame op' (List.mem_cons_of_mem _ h)]

end SameToWord

/-- Behind a span comes a character that is not of it. -/
theorem spanLength_behind (p : Char → Bool) : ∀ cs : List Char,
    spanLength p (cs.drop (spanLength p cs)) = 0
  | [] => rfl
  | c :: cs => by
    by_cases hc : p c = true
    · rw [spanLength_cons, if_pos hc, List.drop_succ_cons]
      exact spanLength_behind p cs
    · have hzero : spanLength p (c :: cs) = 0 := by rw [spanLength_cons, if_neg hc]
      rw [hzero, List.drop_zero, hzero]

/-- Where no span begins that a word could begin, none begins after a change either. -/
theorem SameToWord.spanLength_eq_zero (hp : ∀ c, beginsWord c = true → p c = true)
    (h : SameToWord cs cs') (hcs : spanLength p cs = 0) : spanLength p cs' = 0 := by
  cases h with
  | done => rfl
  | word hw _ =>
    rw [spanLength_cons, if_pos (hp _ hw)] at hcs
    cases hcs
  | same _ =>
    rw [spanLength_cons] at hcs ⊢
    split at hcs
    · cases hcs
    · rename_i hc
      rw [if_neg hc]

/-- A span of characters of which any could begin a word ends where it did, if what is behind it is
the same up to a word. -/
theorem spanLength_take_append {more : List Char} (hp : ∀ c, beginsWord c = true → p c = true)
    (h : SameToWord (cs.drop (spanLength p cs)) more) :
    spanLength p (cs.take (spanLength p cs) ++ more) = spanLength p cs := by
  rw [spanLength_append_of_all all_of_mem_span, h.spanLength_eq_zero hp (spanLength_behind p cs),
    List.length_take, Nat.min_eq_left (spanLength_le ..), Nat.add_zero]

/-- A span that ends within the first characters of a text ends there whatever follows them. -/
theorem spanLength_take_of_lt {n : Nat} (hn : spanLength p cs < n) (hle : n ≤ cs.length)
    (more : List Char) : spanLength p (cs.take n ++ more) = spanLength p cs := by
  have htake : spanLength p (cs.take n) = spanLength p cs := by
    unfold spanLength at hn ⊢
    have hsplit : cs.takeWhile p = (cs.take n ++ cs.drop n).takeWhile p := by
      rw [List.take_append_drop]
    rw [List.takeWhile_append] at hsplit
    split at hsplit
    · rename_i hall
      rw [hsplit, List.length_append, List.length_take_of_le hle] at hn
      omega
    · rw [hsplit]
  rw [spanLength_append_of_lt, htake]
  rwa [htake, List.length_take_of_le hle]

/-- A chunk stays one if what is behind it is the same up to a word. -/
theorem chunk?_take_append {q : Chunk} {more : List Char} (hcs : cs ≠ []) (h : chunk? cs = some q)
    (hmore : SameToWord (cs.drop q.length) more) : chunk? (cs.take q.length ++ more) = some q := by
  obtain ⟨hpos, hle⟩ := chunk?_bounds hcs h
  have hsame : SameToWord cs (cs.take q.length ++ more) := by
    have happend := hmore.append (cs.take q.length)
    rwa [List.take_append_drop] at happend
  have htake : (cs.take q.length ++ more).take q.length = cs.take q.length :=
    List.take_left' (List.length_take_of_le hle)
  have hitem : nextItem (cs.take q.length ++ more) = nextItem cs := by
    obtain ⟨n, hn⟩ := Nat.exists_eq_add_one.mpr hpos
    cases cs with
    | nil => exact absurd rfl hcs
    | cons c cs =>
      rw [hn, List.take_succ_cons, List.cons_append] at hsame ⊢
      cases hsame with
      | word hw _ => rw [nextItem_word.mpr hw, nextItem_word.mpr hw]
      | same hs => exact hs.nextItem_eq
  unfold chunk? at h ⊢
  rw [hitem]
  cases hnext : nextItem cs with
  | space =>
    rw [hnext] at h
    cases h
    dsimp only at hsame ⊢
    rw [(hsame.spanLength_eq fun _ => not_isSpace_of_beginsWord).1]
  | comment =>
    rw [hnext] at h
    cases h
    dsimp only at hmore ⊢
    rw [spanLength_take_append (fun _ => inComment_of_beginsWord) hmore]
  | string =>
    rw [hnext] at h
    dsimp only at h ⊢
    split at h
    · cases h
    · rename_i hrest
      have hinner : 1 + spanLength (· ≠ '"') (cs.drop 1) < cs.length := by simpa using hrest
      cases h
      dsimp only at hle htake ⊢
      generalize hn : spanLength (· ≠ '"') (cs.drop 1) = n at *
      have hdrop : (cs.take (1 + n + 1) ++ more).drop 1 = (cs.drop 1).take (n + 1) ++ more := by
        rw [List.drop_append_of_le_length (by rw [List.length_take]; omega), List.drop_take]
        congr 2
        omega
      have hspan : spanLength (· ≠ '"') ((cs.drop 1).take (n + 1) ++ more) = n := by
        rw [spanLength_take_of_lt (by omega) (by rw [List.length_drop]; omega), hn]
      rw [hdrop, hspan, htake, if_neg]
      simp only [List.isEmpty_iff, List.drop_eq_nil_iff, List.length_append, List.length_take]
      omega
  | number =>
    rw [hnext] at h
    cases h
    dsimp only at hsame htake ⊢
    rw [hsame.numeralLength_eq, htake]
  | word =>
    rw [hnext] at h
    cases h
    dsimp only at hmore htake ⊢
    have hlength : wordLength (cs.take (wordLength cs) ++ more) = wordLength cs :=
      spanLength_take_append (fun _ => continuesWord_of_beginsWord) hmore
    rw [hlength, htake]
  | operator =>
    rw [hnext] at h
    dsimp only at h ⊢
    rw [hsame.operatorAt?_eq]
    exact h

end

/-! ### Names -/

/-- The text is one word, and none of the language. -/
structure IsName (text : String) : Prop where
  begins : nextItem text.toList = .word
  whole : wordLength text.toList = text.toList.length
  free : wordKind text = .identifier

instance (text : String) : Decidable (IsName text) :=
  decidable_of_iff (nextItem text.toList = .word ∧ wordLength text.toList = text.toList.length ∧
    wordKind text = .identifier) ⟨fun ⟨h, g, k⟩ => ⟨h, g, k⟩, fun ⟨h, g, k⟩ => ⟨h, g, k⟩⟩

theorem IsName.isPlain {text : String} (h : IsName text) : isPlain text :=
  (wordKind_spelled text .nil 0).1.name h.free

/-- A chunk that is a word. -/
theorem chunk?_word {cs : List Char} (h : nextItem cs = .word) :
    chunk? cs = some ⟨wordLength cs, some (wordKind (String.ofList (cs.take (wordLength cs))), .nil)⟩ := by
  unfold chunk?
  rw [h]

/-- Only words are names. -/
theorem nextItem_of_identifier {cs : List Char} {p : Chunk} (h : chunk? cs = some p) {l : Literal}
    (hp : p.token = some (.identifier, l)) : nextItem cs = .word := by
  unfold chunk? at h
  cases hnext : nextItem cs with
  | word => rfl
  | space | comment =>
    rw [hnext] at h
    cases h
    cases hp
  | string =>
    rw [hnext] at h
    dsimp only at h
    split at h
    · cases h
    · cases h
      cases hp
  | number =>
    rw [hnext] at h
    cases h
    obtain ⟨_, _, heq⟩ := Option.map_eq_some_iff.mp hp
    cases heq
  | operator =>
    rw [hnext] at h
    obtain ⟨op, hop, rfl⟩ := Option.map_eq_some_iff.mp h
    obtain ⟨hkind, -⟩ := Prod.mk.inj (Option.some.inj hp)
    exact absurd (by simp [hkind]) (operators_spelled op (List.mem_of_find?_eq_some hop))

theorem nextItem_append_of_word {cs : List Char} (h : nextItem cs = .word) (more : List Char) :
    nextItem (cs ++ more) = .word := by
  cases cs with
  | nil => cases h
  | cons c cs => exact nextItem_word.mpr (nextItem_word.mp h)

theorem nextItem_take {cs : List Char} {n : Nat} (hn : 0 < n) :
    nextItem (cs.take n) = .word ↔ nextItem cs = .word := by
  obtain ⟨n, rfl⟩ := Nat.exists_eq_add_one.mpr hn
  cases cs with
  | nil => exact Iff.rfl
  | cons c cs => rw [List.take_succ_cons, nextItem_word, nextItem_word]

theorem isName_word {cs : List Char} (hpos : 0 < wordLength cs) (hword : nextItem cs = .word)
    (hkind : wordKind (String.ofList (cs.take (wordLength cs))) = .identifier) :
    IsName (String.ofList (cs.take (wordLength cs))) := by
  have hwhole : spanLength continuesWord (cs.take (wordLength cs) ++ []) =
      (cs.take (wordLength cs)).length := spanLength_append_of_all all_of_mem_span
  rw [List.append_nil] at hwhole
  refine ⟨?_, ?_, hkind⟩ <;> rw [String.toList_ofList]
  · exact (nextItem_take hpos).mpr hword
  · exact hwhole

/-- The token of a chunk is a name if its characters are one. -/
theorem Chunk.identifier_iff {cs : List Char} {p : Chunk} (hcs : cs ≠ []) (hp : chunk? cs = some p)
    (pos : Nat) : ∀ t ∈ p.tokens pos cs, t.kind = .identifier ↔ IsName t.lexeme := by
  intro t ht
  have hpos := (chunk?_bounds hcs hp).1
  unfold Chunk.tokens at ht
  cases htoken : p.token with
  | none =>
    rw [htoken] at ht
    cases ht
  | some token =>
    rw [htoken] at ht
    obtain rfl := List.mem_singleton.mp ht
    constructor
    · intro hkind
      have hword := nextItem_of_identifier hp (l := token.2) (by rw [htoken, ← hkind])
      cases (chunk?_word hword).symm.trans hp
      cases htoken
      exact isName_word hpos hword hkind
    · intro hname
      have hbegins := hname.begins
      rw [String.toList_ofList] at hbegins
      cases (chunk?_word ((nextItem_take hpos).mp hbegins)).symm.trans hp
      cases htoken
      exact hname.free

/-- A token of a text is a name if its characters are one. -/
theorem Scans.identifier_iff {pos : Nat} {cs : List Char} {ts : List Token} (h : Scans pos cs ts) :
    ∀ t ∈ ts, t.kind = .identifier ↔ IsName t.lexeme := by
  induction h with
  | done => exact fun _ ht => nomatch ht
  | chunk hcs hp _ ih =>
    exact fun t ht => (List.mem_append.mp ht).elim (Chunk.identifier_iff hcs hp _ t) (ih t)

/-! ### Words replaced -/

/-- The characters from a position on, so many of them left out, with a new word in place of each
word that begins where one is picked. -/
def replaceWords (new : List Char) (picked : Int → Bool) : Nat → Nat → List Char → List Char
  | _, _, [] => []
  | pos, skip + 1, _ :: cs => replaceWords new picked (pos + 1) skip cs
  | pos, 0, c :: cs =>
    if picked pos then new ++ replaceWords new picked (pos + 1) (wordLength (c :: cs) - 1) cs
    else c :: replaceWords new picked (pos + 1) 0 cs

section

variable {new : List Char} {picked : Int → Bool}

theorem replaceWords_skip : ∀ (n pos : Nat) (cs : List Char),
    replaceWords new picked pos n cs = replaceWords new picked (pos + n) 0 (cs.drop n)
  | 0, _, _ => rfl
  | _ + 1, _, [] => by simp [replaceWords]
  | n + 1, pos, _ :: cs => by
    rw [replaceWords, replaceWords_skip n, List.drop_succ_cons, Nat.add_assoc, Nat.add_comm 1 n]

/-- A word that is picked. -/
theorem replaceWords_word {pos : Nat} {cs : List Char} (hp : picked pos = true)
    (hw : 0 < wordLength cs) : replaceWords new picked pos 0 cs =
      new ++ replaceWords new picked (pos + wordLength cs) 0 (cs.drop (wordLength cs)) := by
  obtain ⟨n, hn⟩ := Nat.exists_eq_add_one.mpr hw
  cases cs with
  | nil => cases hw
  | cons c cs =>
    rw [replaceWords, if_pos hp, replaceWords_skip, hn, List.drop_succ_cons, Nat.add_sub_cancel,
      Nat.add_assoc, Nat.add_comm 1 n]

/-- Characters where no word is picked. -/
theorem replaceWords_pass : ∀ {n pos : Nat} {cs : List Char},
    (∀ q : Nat, pos ≤ q → q < pos + n → picked q = false) → replaceWords new picked pos 0 cs =
      cs.take n ++ replaceWords new picked (pos + n) 0 (cs.drop n)
  | 0, _, _, _ => rfl
  | n + 1, pos, [], _ => by simp [replaceWords]
  | n + 1, pos, c :: cs, hp => by
    have hrest : replaceWords new picked (pos + 1) 0 cs =
        cs.take n ++ replaceWords new picked (pos + 1 + n) 0 (cs.drop n) :=
      replaceWords_pass fun q hq hlt => hp q (by omega) (by omega)
    rw [replaceWords, if_neg (by simp [hp pos (Nat.le_refl _) (by omega)]), hrest, List.take_succ_cons,
      List.drop_succ_cons, List.cons_append, Nat.add_assoc, Nat.add_comm 1 n]

end

/-- A name is all of a word. -/
theorem Chunk.eq_of_identifier {p : Chunk} {pos : Nat} {cs : List Char} (hp : chunk? cs = some p)
    {t : Token} (ht : t ∈ p.tokens pos cs) (hkind : t.kind = .identifier) :
    nextItem cs = .word ∧ p = ⟨wordLength cs, some (.identifier, .nil)⟩ := by
  obtain ⟨⟨kind, l⟩, htoken, rfl⟩ := Option.map_eq_some_iff.mp (Option.mem_toList.mp ht)
  obtain rfl : kind = .identifier := hkind
  have hword := nextItem_of_identifier hp htoken
  have heq := Option.some.inj ((chunk?_word hword).symm.trans hp)
  rw [← heq] at htoken
  obtain ⟨hkind, -⟩ := Prod.mk.inj (Option.some.inj htoken)
  rw [hkind] at heq
  exact ⟨hword, heq.symm⟩

/-- A chunk before a text that is the same up to a word. -/
theorem Scans.keep {place : Nat} {cs more : List Char} {p : Chunk} {us : List Token} (hcs : cs ≠ [])
    (hp : chunk? cs = some p) (hsame : SameToWord (cs.drop p.length) more)
    (h : Scans (place + p.length) more us) :
    Scans place (cs.take p.length ++ more) (p.tokens place cs ++ us) := by
  obtain ⟨hpos, hle⟩ := chunk?_bounds hcs hp
  have hlength : (cs.take p.length).length = p.length := List.length_take_of_le hle
  have htokens : p.tokens place (cs.take p.length ++ more) = p.tokens place cs := by
    unfold Chunk.tokens
    rw [List.take_left' hlength]
  rw [← htokens]
  refine .chunk ?_ (chunk?_take_append hcs hp hsame) ?_
  · refine List.append_ne_nil_of_left_ne_nil (List.length_pos_iff.mp ?_) _
    rwa [hlength]
  · rwa [List.drop_left' hlength]

/-- A name before a text that is, up to a word, what stood behind a word. -/
theorem Scans.name {place : Nat} {new : String} (hnew : IsName new) {rest more : List Char}
    {us : List Token} (hsame : SameToWord rest more) (hrest : spanLength continuesWord rest = 0)
    (h : Scans (place + new.toList.length) more us) :
    Scans place (new.toList ++ more) (⟨.identifier, new, .nil, place⟩ :: us) := by
  have hpos : new.toList ≠ [] := by
    intro heq
    have hbegins := hnew.begins
    rw [heq] at hbegins
    cases hbegins
  have hall : ∀ c ∈ new.toList, continuesWord c = true := by
    have hspan : ∀ c ∈ new.toList.take (spanLength continuesWord new.toList), continuesWord c = true :=
      all_of_mem_span
    rwa [show spanLength continuesWord new.toList = _ from hnew.whole, List.take_length] at hspan
  have hword := nextItem_append_of_word hnew.begins more
  have hlength : wordLength (new.toList ++ more) = new.toList.length := by
    rw [wordLength, spanLength_append_of_all hall,
      hsame.spanLength_eq_zero (fun _ => continuesWord_of_beginsWord) hrest, Nat.add_zero]
  have hchunk := chunk?_word hword
  rw [hlength, List.take_left, String.ofList_toList, hnew.free] at hchunk
  have htokens : Chunk.tokens ⟨new.toList.length, some (.identifier, .nil)⟩ place (new.toList ++ more) =
      [⟨.identifier, new, .nil, place⟩] := by
    simp [Chunk.tokens]
  rw [← List.singleton_append, ← htokens]
  refine .chunk (List.append_ne_nil_of_left_ne_nil hpos _) hchunk ?_
  rwa [List.drop_left]

/-- **Names replaced.** With a new name in place of names, a text is the same up to a word, and wherever it
stands its tokens are those that there were, with the new name where it was picked. -/
theorem Scans.replace {new : String} (hnew : IsName new) {picked : Int → Bool} {pos : Nat}
    {cs : List Char} {ts : List Token} (h : Scans pos cs ts)
    (hpicked : ∀ q : Nat, picked q = true → pos ≤ q → q < pos + cs.length →
      ∃ t ∈ ts, t.offset = q ∧ t.kind = .identifier) :
    SameToWord cs (replaceWords new.toList picked pos 0 cs) ∧
      ∀ place, ∃ us, Scans place (replaceWords new.toList picked pos 0 cs) us ∧
        us.map Token.word =
          ts.map fun t => (t.kind, if picked t.offset then new else t.lexeme, t.literal) := by
  induction h with
  | done => exact ⟨.done, fun _ => ⟨[], .done, rfl⟩⟩
  | @chunk pos cs p ts hcs hp hrest ih =>
    obtain ⟨hpos, hle⟩ := chunk?_bounds hcs hp
    have hbehind : ∀ t ∈ ts, (pos : Int) + p.length ≤ t.offset := by
      simpa using hrest.increasing.1
    obtain ⟨hsame, hscans⟩ := ih fun q hq hleq hlt => by
      rw [List.length_drop] at hlt
      obtain ⟨t, ht, hoffset, hkind⟩ := hpicked q hq (by omega) (by omega)
      refine ⟨t, (List.mem_append.mp ht).resolve_left fun ht => ?_, hoffset, hkind⟩
      have heq := Chunk.offset_tokens t ht
      omega
    by_cases hfirst : picked pos = true
    · -- the name that begins here is the word that the chunk is
      obtain ⟨t, ht, hoffset, hkind⟩ := hpicked pos hfirst (Nat.le_refl _) (by omega)
      have ht : t ∈ p.tokens pos cs := (List.mem_append.mp ht).resolve_right fun ht => by
        have hle := hbehind t ht
        omega
      obtain ⟨hword, rfl⟩ := Chunk.eq_of_identifier hp ht hkind
      rw [replaceWords_word hfirst hpos]
      refine ⟨.of_words hword (nextItem_append_of_word hnew.begins _), fun place => ?_⟩
      obtain ⟨us, hus, hwords⟩ := hscans (place + new.toList.length)
      refine ⟨_, .name hnew hsame (spanLength_behind continuesWord cs) hus, ?_⟩
      rw [List.map_append, List.map_cons, hwords]
      simp [Chunk.tokens, Token.word, hfirst]
    · have hnone : ∀ q : Nat, pos ≤ q → q < pos + p.length → picked q = false := by
        intro q hleq hlt
        refine Bool.eq_false_iff.mpr fun hq => ?_
        obtain ⟨t, ht, hoffset, -⟩ := hpicked q hq hleq (by omega)
        obtain ht | ht := List.mem_append.mp ht
        · have heq := Chunk.offset_tokens t ht
          obtain rfl : q = pos := by omega
          exact hfirst hq
        · have hle := hbehind t ht
          omega
      rw [replaceWords_pass hnone]
      refine ⟨?_, fun place => ?_⟩
      · have happend := hsame.append (cs.take p.length)
        rwa [List.take_append_drop] at happend
      · obtain ⟨us, hus, hwords⟩ := hscans (place + p.length)
        refine ⟨_, .keep hcs hp hsame hus, ?_⟩
        rw [List.map_append, List.map_append, hwords]
        congr 1
        unfold Chunk.tokens
        cases p.token <;> simp [Token.word, hfirst]

end Lox
