import TextrpBriij.Push.GlobMatcher

/-! # The meaning of globs

The regular expression of a glob matches a text exactly when the glob does with wildcards that
leave out newlines.
-/
namespace TextrpBriij.Push
open Fallible List
open Glob (Token Matches)

def SameCase (a b : AsciiChar) : Prop := lower a = lower b

def tokenOf (c : AsciiChar) : Token AsciiChar :=
  if c = questionMark then .one else if c = star then .many else .lit c

/-- The usual meaning of a glob. -/
def GlobMatches (glob s : Text) : Prop := Matches (fun _ => True) SameCase (glob.map tokenOf) s

/-- What the regular expressions make of it: the wildcards do not match a newline. -/
def LineMatches (g : List (Token AsciiChar)) (s : Text) : Prop :=
  Matches (· ≠ newline) SameCase g s

theorem forall_ascii {P : Char → Prop} (h : ∀ n < 128, P (Char.ofNat n)) (c : AsciiChar) : P c.char := by
  have hchar := h c.char.toNat c.ascii
  rwa [Char.ofNat_toNat] at hchar

theorem lower_lower (c : AsciiChar) : lower (lower c) = lower c :=
  AsciiChar.ext (forall_ascii (P := fun c => c.toLower.toLower = c.toLower) (by decide) c)

theorem lower_eq_newline (c : AsciiChar) : lower c = newline ↔ c = newline := by
  rw [AsciiChar.ext_iff,AsciiChar.ext_iff]
  exact forall_ascii (P := fun c => c.toLower = '\n' ↔ c = '\n') (by decide) c

theorem toLowercase_eq_iff {s t : Text} : toLowercase s = toLowercase t ↔ Forall₂ SameCase s t := by
  induction s generalizing t with
  | nil => simp [toLowercase]
  | cons a s ih =>
    cases t with
    | nil => simp [toLowercase]
    | cons b t =>
      rw [forall₂_cons,← ih]
      simp [toLowercase,SameCase]

theorem lineMatches_toLowercase {g : List (Token AsciiChar)} {s : Text} :
    LineMatches g (toLowercase s) ↔ LineMatches g s := by
  refine Glob.matches_map (fun b => ?_) (fun a b => ?_)
  · exact not_congr (lower_eq_newline b)
  · unfold SameCase
    rw [lower_lower]

def Chunk.tokens : Chunk → List (Token AsciiChar)
  | escaped text => text.map .lit
  | dots count orMore => replicate count .one ++ if orMore then [.many] else []

theorem fits_dots {count n : ℕ} {orMore : Bool} :
    Glob.Fits (Chunk.dots count orMore).tokens n ↔ if orMore then count ≤ n else count = n := by
  cases orMore with
  | true => simp [Glob.Fits,Chunk.tokens,countP_replicate]
  | false => simp [Glob.Fits,Chunk.tokens,countP_replicate]

theorem isWild_dots {count : ℕ} {orMore : Bool} : ∀ t ∈ (Chunk.dots count orMore).tokens, t.isWild := by
  intro t ht
  rcases mem_append.mp ht with ht | ht
  · rw [eq_of_mem_replicate ht]
    rfl
  · cases orMore with
    | true =>
      rw [mem_singleton.mp ht]
      rfl
    | false => cases ht

theorem mem_rests {chunk : Chunk} {s rest : Text} : rest ∈ chunk.rests s ↔
    ∃ taken, s = taken ++ rest ∧ LineMatches chunk.tokens taken := by
  cases chunk with
  | escaped text =>
    have hmatches : ∀ taken, LineMatches (Chunk.escaped text).tokens taken ↔
        toLowercase text = toLowercase taken := fun taken => by
      rw [toLowercase_eq_iff]
      exact Glob.matches_map_lit
    simp only [Chunk.rests,hmatches,mem_ite_nil_right,mem_singleton]
    constructor
    · rintro ⟨heq,rfl⟩
      exact ⟨s.take text.length,(take_append_drop ..).symm,heq.symm⟩
    · rintro ⟨taken,rfl,heq⟩
      have hlength : text.length = taken.length := by
        simpa [toLowercase] using congrArg length heq
      rw [hlength,take_left,drop_left]
      exact ⟨heq.symm,rfl⟩
  | dots count orMore =>
    have hmatches : ∀ taken, LineMatches (Chunk.dots count orMore).tokens taken ↔
        (∀ b ∈ taken, b ≠ newline) ∧ if orMore then count ≤ taken.length else count = taken.length :=
      fun taken => by
        rw [← fits_dots]
        exact Glob.matches_wild isWild_dots
    simp only [Chunk.rests,hmatches,mem_map,mem_filter,mem_range,Bool.and_eq_true,
      all_eq_true,decide_eq_true_eq]
    constructor
    · rintro ⟨n,⟨hn,hcount,hall⟩,rfl⟩
      refine ⟨s.take n,(take_append_drop ..).symm,hall,?_⟩
      rw [length_take,Nat.min_eq_left (by omega)]
      simpa using hcount
    · rintro ⟨taken,rfl,hall,hcount⟩
      refine ⟨taken.length,⟨?_,?_,?_⟩,drop_left⟩
      · rw [length_append]
        omega
      · simpa using hcount
      · rw [take_left]
        exact hall

theorem mem_restsOf {chunks : List Chunk} {s rest : Text} : rest ∈ restsOf chunks s ↔
    ∃ taken, s = taken ++ rest ∧ LineMatches (chunks.flatMap Chunk.tokens) taken := by
  induction chunks generalizing s with
  | nil =>
    simp only [restsOf,mem_singleton]
    constructor
    · rintro rfl
      exact ⟨[],rfl,.nil⟩
    · rintro ⟨taken,rfl,h⟩
      rw [Glob.matches_nil.mp h]
      rfl
  | cons chunk chunks ih =>
    simp only [restsOf,mem_flatMap,mem_rests,ih]
    constructor
    · rintro ⟨middle,⟨first,rfl,hfirst⟩,others,rfl,hothers⟩
      exact ⟨first ++ others,(append_assoc ..).symm, Glob.matches_append.mpr ⟨first,others,rfl,hfirst,hothers⟩⟩
    · rintro ⟨taken,rfl,h⟩
      obtain ⟨first,others,rfl,hfirst,hothers⟩ := Glob.matches_append.mp h
      exact ⟨others ++ rest,⟨first,append_assoc ..,hfirst⟩,others,rfl,hothers⟩

theorem wildcardRuns_spec {fuel : ℕ} {glob : Text} (hfuel : glob.length ≤ fuel) :
    (wildcardRuns fuel glob).flatMap (fun run => run.1 ++ run.2) = glob ∧
      ∀ run ∈ wildcardRuns fuel glob, (∀ c ∈ run.1, isWildcard c = false) ∧ ∀ c ∈ run.2, isWildcard c := by
  induction fuel generalizing glob with
  | zero =>
    obtain rfl := length_eq_zero_iff.mp (Nat.le_zero.mp hfuel)
    exact ⟨rfl,by simp [wildcardRuns]⟩
  | succ fuel ih =>
    cases glob with
    | nil => exact ⟨rfl,by simp [wildcardRuns]⟩
    | cons c cs =>
      rw [wildcardRuns]
      · have hshorter : (((c :: cs).dropWhile fun c => !isWildcard c).dropWhile isWildcard).length ≤ fuel := by
          -- The first character is dropped in one of the two rounds.
          have hlength : cs.length ≤ fuel := by simpa using hfuel
          cases hc : isWildcard c with
          | true =>
            rw [dropWhile_cons_of_neg (by simp [hc]),dropWhile_cons_of_pos hc]
            exact Nat.le_trans (dropWhile_suffix _).length_le hlength
          | false =>
            rw [dropWhile_cons_of_pos (by simp [hc])]
            exact Nat.le_trans ((dropWhile_suffix _).length_le.trans (dropWhile_suffix _).length_le) hlength
        obtain ⟨hflat,hruns⟩ := ih hshorter
        constructor
        · rw [flatMap_cons,hflat,append_assoc,takeWhile_append_dropWhile, takeWhile_append_dropWhile]
        · intro run hin
          rcases mem_cons.mp hin with rfl | hin
          · refine ⟨fun d hd => ?_,fun d hd => mem_takeWhile_imp hd⟩
            have hnot := mem_takeWhile_imp hd
            simpa using hnot
          · exact hruns run hin
      · simp

theorem tokenOf_of_not_wildcard {c : AsciiChar} (h : isWildcard c = false) : tokenOf c = .lit c := by
  simp only [isWildcard,decide_eq_false_iff_not,not_or] at h
  rw [tokenOf,if_neg h.1,if_neg h.2]

theorem fits_wildcards {wildcards : Text} (h : ∀ c ∈ wildcards, isWildcard c) (n : ℕ) :
    Glob.Fits (wildcards.map tokenOf) n ↔
      if decide (star ∈ wildcards) then wildcards.countP (· = questionMark) ≤ n
      else wildcards.countP (· = questionMark) = n := by
  have hcount : (wildcards.map tokenOf).countP Token.isOne = wildcards.countP (· = questionMark) := by
    rw [countP_map]
    refine countP_congr fun c _ => ?_
    by_cases hc : c = questionMark
    · simp [tokenOf,hc]
    · by_cases hstar : c = star
      · simp [tokenOf,hstar,show star ≠ questionMark by decide]
      · simp [tokenOf,hc,hstar]
  have hmany : (wildcards.map tokenOf).any Token.isMany = decide (star ∈ wildcards) := by
    rw [Bool.eq_iff_iff,any_eq_true,decide_eq_true_eq]
    constructor
    · rintro ⟨t,ht,hmany⟩
      obtain ⟨c,hc,rfl⟩ := mem_map.mp ht
      by_cases hstar : c = star
      · exact hstar ▸ hc
      · have hquestion : c = questionMark := by simpa [isWildcard,hstar] using h c hc
        simp [tokenOf,hquestion] at hmany
    · intro hin
      exact ⟨tokenOf star,mem_map_of_mem hin,by decide⟩
  rw [Glob.Fits,hcount,hmany]

theorem lineMatches_chunksOf {run : Text × Text} (hchunk : ∀ c ∈ run.1, isWildcard c = false)
    (hwild : ∀ c ∈ run.2, isWildcard c) {s : Text} :
    LineMatches ((chunksOf run).flatMap Chunk.tokens) s ↔ LineMatches ((run.1 ++ run.2).map tokenOf) s := by
  have hlits : run.1.map tokenOf = run.1.map .lit :=
    map_congr_left fun c hc => tokenOf_of_not_wildcard (hchunk c hc)
  have htokens : ∀ t ∈ run.2.map tokenOf, t.isWild := by
    intro t ht
    obtain ⟨c,hc,rfl⟩ := mem_map.mp ht
    have hc := of_decide_eq_true (hwild c hc)
    rcases hc with rfl | rfl
    · decide
    · decide
  have hdots : ∀ t : Text, LineMatches ((if run.2 = [] then []
        else [Chunk.dots (run.2.countP (· = questionMark)) (decide (star ∈ run.2))]).flatMap
          Chunk.tokens) t ↔ LineMatches (run.2.map tokenOf) t := by
    intro t
    split
    · rename_i hnil
      rw [hnil]
      exact Iff.rfl
    · rw [flatMap_singleton]
      refine (Glob.matches_wild isWild_dots).trans ((Glob.matches_wild htokens).trans ?_).symm
      rw [fits_dots,fits_wildcards hwild]
  rw [chunksOf,flatMap_cons,map_append,hlits]
  simp only [LineMatches,Glob.matches_append] at hdots ⊢
  simp only [hdots,Chunk.tokens]

theorem lineMatches_regexOf {glob s : Text} {matchType : GlobMatchType} :
    LineMatches ((regexOf glob matchType).chunks.flatMap Chunk.tokens) s ↔
      LineMatches (glob.map tokenOf) s := by
  obtain ⟨hflat,hruns⟩ := wildcardRuns_spec (Nat.le_refl glob.length)
  conv => rhs; rw [← hflat]
  change LineMatches (((wildcardRuns glob.length glob).flatMap chunksOf).flatMap Chunk.tokens) s ↔ _
  generalize wildcardRuns glob.length glob = runs at hruns ⊢
  induction runs generalizing s with
  | nil => exact Iff.rfl
  | cons run runs ih =>
    have hrun := fun {t : Text} => @lineMatches_chunksOf run (hruns run mem_cons_self).1
      (hruns run mem_cons_self).2 t
    have hrest := fun {t : Text} => @ih t fun r hr => hruns r (mem_cons_of_mem _ hr)
    rw [flatMap_cons,flatMap_append,flatMap_cons,map_append]
    unfold LineMatches at hrun hrest ⊢
    rw [Glob.matches_append,Glob.matches_append]
    simp only [hrun,hrest]

theorem isMatch_whole {glob s : Text} : (regexOf glob .whole).isMatch s ↔ LineMatches (glob.map tokenOf) s := by
  rw [← @lineMatches_regexOf glob s .whole]
  change ((restsOf (regexOf glob .whole).chunks s).any fun rest => rest.isEmpty) ↔ _
  rw [any_eq_true]
  constructor
  · rintro ⟨rest,hin,hempty⟩
    obtain rfl := isEmpty_iff.mp hempty
    obtain ⟨taken,rfl,h⟩ := mem_restsOf.mp hin
    rwa [append_nil]
  · intro h
    exact ⟨[],mem_restsOf.mpr ⟨s,(append_nil s).symm,h⟩,rfl⟩

theorem countP_tokenOf (glob : Text) :
    (glob.map tokenOf).countP (Token.isLitOf fun c => decide (c = newline)) = glob.count newline := by
  rw [countP_map]
  refine countP_congr fun c _ => ?_
  by_cases hquestion : c = questionMark
  · subst hquestion
    decide
  · by_cases hstar : c = star
    · subst hstar
      decide
    · simp [tokenOf,hquestion,hstar,Token.isLitOf]

theorem newline_of_sameCase (a b : AsciiChar) (h : SameCase a b) : decide (a = newline) ↔ b = newline := by
  rw [decide_eq_true_eq,← lower_eq_newline a,← lower_eq_newline b,h]

theorem lineMatches_iff {glob s : Text} : LineMatches (glob.map tokenOf) s ↔
    GlobMatches glob s ∧ s.count newline = glob.count newline := by
  rw [← countP_tokenOf glob]
  exact Glob.matches_ne_iff newline_of_sameCase

theorem map_tokenOf_literal {glob : Text} (h : glob.any isWildcard = false) :
    glob.map tokenOf = glob.map .lit := by
  refine map_congr_left fun c hc => tokenOf_of_not_wildcard ?_
  simpa using any_eq_false.mp h c hc

theorem lineMatches_literal {glob s : Text} (h : glob.any isWildcard = false) :
    LineMatches (glob.map tokenOf) s ↔ toLowercase glob = toLowercase s := by
  rw [map_tokenOf_literal h,toLowercase_eq_iff]
  exact Glob.matches_map_lit

section
variable (fits : Regex → Bool) (glob subject : Text)

/-- The matcher for whole texts accepts the subject exactly when the glob matches it, and without
wildcards it gives the answer of the regular expression. -/
structure MeansGlob : Prop where
  accepts : ∃ matcher accepted after, getGlobMatcher fits glob .whole = .ok matcher ∧
    matcher.isMatch fits subject = .ok (accepted,after) ∧
    (accepted = true ↔ GlobMatches glob subject)
  literal : glob.any isWildcard = false → ∀ matcher regex,
    getGlobMatcher fits glob .whole = .ok matcher → globToRegex fits glob .whole = .ok regex →
    ∃ after, matcher.isMatch fits subject = .ok (regex.isMatch (toLowercase subject),after)

variable {fits glob subject}

theorem isMatch_toLowercase : (regexOf glob .whole).isMatch (toLowercase subject) ↔
      GlobMatches glob subject ∧ subject.count newline = glob.count newline := by
  rw [isMatch_whole,lineMatches_toLowercase,lineMatches_iff]

theorem globToRegex_eq_ok {matchType : GlobMatchType} {regex : Regex} :
    globToRegex fits glob matchType = .ok regex ↔
      fits (regexOf glob matchType) ∧ regex = regexOf glob matchType := by
  unfold globToRegex
  split
  · rename_i hfits
    simp [hfits,eq_comm]
  · rename_i hfits
    simp [hfits]

theorem getGlobMatcher_literal (h : glob.any isWildcard = false) :
    getGlobMatcher fits glob .whole = .ok (.whole (toLowercase glob)) := by
  rw [getGlobMatcher,h]
  rfl

theorem getGlobMatcher_wildcard (h : glob.any isWildcard) {matcher : Matcher} :
    getGlobMatcher fits glob .whole = .ok matcher ↔
      fits (regexOf glob .whole) ∧ matcher = .regex (regexOf glob .whole) := by
  rw [getGlobMatcher,if_pos h,bind_eq_ok]
  simp only [globToRegex_eq_ok,pure_eq,Except.ok.injEq]
  constructor
  · rintro ⟨regex,⟨hfits,rfl⟩,rfl⟩
    exact ⟨hfits,rfl⟩
  · rintro ⟨hfits,rfl⟩
    exact ⟨_,⟨hfits,rfl⟩,rfl⟩

/-- The matcher means what the glob says exactly when the expression can be built, and the subject
has no other newlines than the glob if it should match. -/
theorem meansGlob_iff (fits : Regex → Bool) (glob subject : Text) : MeansGlob fits glob subject ↔
    (glob.any isWildcard = true → fits (regexOf glob .whole) = true) ∧
      (GlobMatches glob subject → subject.count newline = glob.count newline) := by
  cases hwild : glob.any isWildcard with
  | false =>
    have hcompare : toLowercase glob = toLowercase subject ↔
        GlobMatches glob subject ∧ subject.count newline = glob.count newline := by
      rw [← lineMatches_literal hwild,lineMatches_iff]
    have hliteral : GlobMatches glob subject → subject.count newline = glob.count newline := by
      -- Without wildcards the texts are equal but for case.
      intro h
      rw [GlobMatches,map_tokenOf_literal hwild,Glob.matches_map_lit,← toLowercase_eq_iff] at h
      exact (hcompare.mp h).2
    refine iff_of_true ⟨?_,?_⟩ ⟨(fun h => by cases h),hliteral⟩
    · refine ⟨_,_,_,getGlobMatcher_literal hwild,rfl,?_⟩
      rw [decide_eq_true_eq,hcompare]
      exact and_iff_left_of_imp hliteral
    · intro _ matcher regex hmatcher hregex
      rw [getGlobMatcher_literal hwild] at hmatcher
      cases hmatcher
      obtain ⟨-,rfl⟩ := globToRegex_eq_ok.mp hregex
      refine ⟨.whole (toLowercase glob),?_⟩
      have hsame : decide (toLowercase glob = toLowercase subject) =
          (regexOf glob .whole).isMatch (toLowercase subject) := by
        rw [Bool.eq_iff_iff,decide_eq_true_eq,hcompare,isMatch_toLowercase]
      rw [Matcher.isMatch,hsame]
      rfl
  | true =>
    constructor
    · intro h
      obtain ⟨matcher,accepted,after,hmatcher,hmatch,haccepted⟩ := h.accepts
      obtain ⟨hfits,rfl⟩ := (getGlobMatcher_wildcard hwild).mp hmatcher
      cases hmatch
      exact ⟨fun _ => hfits,fun hglob => (isMatch_toLowercase.mp (haccepted.mpr hglob)).2⟩
    · rintro ⟨hfits,hcount⟩
      refine ⟨⟨_,_,_,(getGlobMatcher_wildcard hwild).mpr ⟨hfits rfl,rfl⟩,rfl,?_⟩,?_⟩
      · rw [isMatch_toLowercase]
        exact and_iff_left_of_imp hcount
      · intro hfalse
        rw [hwild] at hfalse
        cases hfalse

theorem toLowercase_toLowercase (s : Text) : toLowercase (toLowercase s) = toLowercase s := by
  rw [toLowercase,toLowercase,map_map]
  exact map_congr_left fun c _ => lower_lower c

theorem isWildcard_lower (c : AsciiChar) : isWildcard (lower c) = isWildcard c := by
  unfold isWildcard
  rw [decide_eq_decide,AsciiChar.ext_iff,AsciiChar.ext_iff,AsciiChar.ext_iff,AsciiChar.ext_iff]
  exact forall_ascii (P := fun c => (c.toLower = '?' ∨ c.toLower = '*') ↔ (c = '?' ∨ c = '*')) (by decide) c

section
variable (h : glob.any isWildcard = false)
include h

theorem mem_restsOf_literal {matchType : GlobMatchType} {s rest : Text}
    : rest ∈ restsOf (regexOf glob matchType).chunks s ↔
      ∃ taken, s = taken ++ rest ∧ toLowercase glob = toLowercase taken := by
  simp only [mem_restsOf,lineMatches_regexOf,lineMatches_literal h]

theorem isMatch_word_toLowercase (s : Text) :
    (regexOf (toLowercase glob) .word).isMatch s = (regexOf glob .word).isMatch s := by
  have hlower : (toLowercase glob).any isWildcard = false := by
    rw [toLowercase]
    simpa [isWildcard_lower] using h
  have hrests : ∀ t rest : Text, rest ∈ restsOf (regexOf (toLowercase glob) .word).chunks t ↔
      rest ∈ restsOf (regexOf glob .word).chunks t := by
    intro t rest
    rw [mem_restsOf_literal hlower,mem_restsOf_literal h,toLowercase_toLowercase]
  rw [Bool.eq_iff_iff]
  simp only [Regex.isMatch,regexOf,any_eq_true,Bool.and_eq_true] at hrests ⊢
  simp only [hrests]

theorem contains_of_isMatch_word (hmatch : (regexOf glob .word).isMatch (toLowercase subject)) :
    toLowercase glob <:+: toLowercase subject := by
  obtain ⟨start,-,hstart⟩ := any_eq_true.mp hmatch
  obtain ⟨rest,hin,-⟩ := any_eq_true.mp (Bool.and_eq_true_iff.mp hstart).2
  obtain ⟨taken,hcut,heq⟩ := (mem_restsOf_literal h).mp hin
  have htaken : taken <:+: toLowercase subject :=
    IsInfix.trans ⟨[],rest,hcut.symm⟩ (drop_suffix start _).isInfix
  -- The haystack is in lower case already.
  rw [heq,← toLowercase_toLowercase subject]
  exact htaken.map lower

end

theorem isMatch_word_literal (hliteral : glob.any isWildcard = false)
    (hfits : fits (regexOf (toLowercase glob) .word) = true) :
    ∃ matcher after, getGlobMatcher fits glob .word = .ok matcher ∧ matcher.isMatch fits subject =
      .ok ((regexOf glob .word).isMatch (toLowercase subject),after) := by
  have hmatcher : getGlobMatcher fits glob .word = .ok (.word (toLowercase glob) none) := by
    rw [getGlobMatcher,hliteral]
    rfl
  by_cases hpart : toLowercase glob <:+: toLowercase subject
  · have hregex := globToRegex_eq_ok.mpr ⟨hfits,rfl⟩
    refine ⟨_,.word (toLowercase glob) (some (regexOf (toLowercase glob) .word)),hmatcher,?_⟩
    simp only [Matcher.isMatch,hpart,hregex,ok_bind,isMatch_word_toLowercase hliteral]
    rfl
  · refine ⟨_,.word (toLowercase glob) none,hmatcher,?_⟩
    have hnot : (regexOf glob .word).isMatch (toLowercase subject) = false := by
      rw [Bool.eq_false_iff]
      exact fun hmatch => hpart (contains_of_isMatch_word hliteral hmatch)
    simp only [Matcher.isMatch,hpart,hnot]
    rfl

theorem isMatch_word_literal_newline : ∃ matcher after,
    getGlobMatcher (fun _ => true) [newline] .word = .ok matcher ∧
      matcher.isMatch (fun _ => true) [] = .ok ((regexOf [newline] .word).isMatch [],after) :=
  isMatch_word_literal rfl rfl

theorem isMatch_of_line (hline : subject.count newline = 0) :
    (regexOf glob .whole).isMatch subject ↔ GlobMatches glob subject := by
  rw [isMatch_whole,lineMatches_iff]
  refine and_iff_left_of_imp fun h => ?_
  -- The glob has no newline that the subject lacks.
  have hle := Glob.countP_le_count newline_of_sameCase h
  rw [countP_tokenOf] at hle
  omega

theorem serverMatchesAclEvent_iff {allowIpLiterals : Bool} {allow deny : List Text}
    {acl : ServerAclEvaluator} {isIpv4 : Text → Bool}
    (hacl : newServerAclEvaluator fits allowIpLiterals allow deny = .ok acl)
    (hline : subject.count newline = 0) : acl.serverMatchesAclEvent isIpv4 subject ↔
      (allowIpLiterals ∨ (subject.head?.any (·.char = '[')) = false ∧ isIpv4 subject = false) ∧
      (∀ glob ∈ deny, ¬GlobMatches glob subject) ∧ ∃ glob ∈ allow, GlobMatches glob subject := by
  have hbuilt : ∀ {globs : List Text} {regexes : List Regex},
      globs.mapM (globToRegex fits · .whole) = .ok regexes → regexes = globs.map (regexOf · .whole) := by
    intro globs regexes hregexes
    have hglobs : ∀ glob ∈ globs, globToRegex fits glob .whole = .ok (regexOf glob .whole) := by
      intro glob hglob
      obtain ⟨regex,hregex⟩ := exists_of_mapM_eq_ok hregexes hglob
      rwa [(globToRegex_eq_ok.mp hregex).2] at hregex
    exact Except.ok.inj (hregexes.symm.trans (mapM_eq_ok hglobs))
  simp only [newServerAclEvaluator,bind_eq_ok] at hacl
  obtain ⟨allowed,hallowed,denied,hdenied,hrest⟩ := hacl
  cases hrest
  rw [hbuilt hallowed,hbuilt hdenied,ServerAclEvaluator.serverMatchesAclEvent]
  cases isIpv4 subject <;>
    simp [isMatch_of_line hline]

theorem serverMatchesAclEvent_iff_star : (⟨true,[regexOf [star] .whole],[]⟩ :
    ServerAclEvaluator).serverMatchesAclEvent (fun _ => false) [star] :=
  (@serverMatchesAclEvent_iff (fun _ => true) [star] true [[star]] [] _ _ rfl rfl).mpr
    ⟨.inl rfl,by simp,[star],by simp,(isMatch_of_line rfl).mp (by decide)⟩

/-- The glob that is only a star does not match a text of two lines. -/
theorem star_rejects_newline :
    GlobMatches [star] [newline] ∧
    (∃ matcher after, getGlobMatcher (fun _ => true) [star] .whole = .ok matcher ∧
      matcher.isMatch (fun _ => true) [newline] = .ok (false,after)) ∧
    ¬MeansGlob (fun _ => true) [star] [newline] := by
  have hglob : GlobMatches [star] [newline] :=
    Glob.matches_many.mpr ⟨[newline],[],rfl,fun _ _ => trivial,.nil⟩
  refine ⟨hglob,⟨_,_,rfl,rfl⟩,fun h => ?_⟩
  obtain ⟨matcher,accepted,after,hmatcher,hmatch,haccepted⟩ := h.accepts
  cases hmatcher
  cases hmatch
  exact absurd (haccepted.mpr hglob) (by decide)

end

end TextrpBriij.Push
