import TextrpBriij.Api.Errors
import TextrpBriij.Python.Text

/-! # Numbers in text

`int` and `str` for integers, and splitting and joining at a character. The interpreter's limit on
the number of digits is left out.
-/
namespace TextrpBriij.Python
open Api List

/-- The parts of the Unicode tables that are used here: the decimal digits and the characters
with `str.isdigit`, each outside ASCII, and the `repr` of a string. -/
structure TextTables where
  decimal : Char → Option ℕ
  isdigit : Char → Bool
  repr : String → String

variable (tables : TextTables)

def isdigit (c : Char) : Bool := if c.toNat < 128 then c.isDigit else tables.isdigit c

def digitValue (c : Char) : Option ℕ :=
  if c.isDigit then some (c.toNat - '0'.toNat)
  else if c.toNat < 128 then none
  else tables.decimal c

def natOfChars (cs : List Char) : Option ℕ :=
  let groups := cs.splitOn '_'
  if groups.any isEmpty then none
  else (groups.flatten.mapM (digitValue tables)).map fun digits =>
    digits.foldl (fun n d => 10 * n + d) 0

/-- `int(s)`, where `none` is its `ValueError`. -/
def intOfString (s : String) : Option ℤ :=
  match stripChars isSpace s.toList with
  | '+' :: cs => (natOfChars tables cs).map fun n => n
  | '-' :: cs => (natOfChars tables cs).map fun n => -(n : ℤ)
  | cs => (natOfChars tables cs).map fun n => n

def int (s : String) : Except Error ℤ :=
  match intOfString tables s with
  | some n => pure n
  | none => throw (.raised "ValueError")

/-- `str(n)`, and `"%d" % (n,)` -/
def str (n : ℤ) : String := toString n

def split (sep : Char) (s : String) : List String := (s.toList.splitOn sep).map String.ofList

def splitOnce (sep : Char) (s : String) : List String :=
  match s.toList.dropWhile (· ≠ sep) with
  | [] => [s]
  | _ :: rest => [String.ofList (s.toList.takeWhile (· ≠ sep)),String.ofList rest]

def join (sep : Char) (parts : List String) : String :=
  String.ofList ([sep].intercalate (parts.map String.toList))

theorem toList_str_natCast (n : ℕ) : (str n).toList = Nat.toDigits 10 n := by
  exact String.toList_ofList

theorem toList_str_negSucc (n : ℕ) : (str (Int.negSucc n)).toList = '-' :: Nat.toDigits 10 (n + 1) := by
  change ("-" ++ Nat.repr (n + 1)).toList = _
  rw [String.toList_append]
  exact congrArg ('-' :: ·) String.toList_ofList

variable {c sep : Char}

theorem isDigit_of_mem_str {n : ℤ} (h : c ∈ (str n).toList) : c.isDigit ∨ n < 0 ∧ c = '-' := by
  cases n with
  | ofNat n =>
    rw [Int.ofNat_eq_natCast,toList_str_natCast] at h
    exact .inl (Nat.isDigit_of_mem_toDigits (by decide) (by decide) h)
  | negSucc n =>
    rw [toList_str_negSucc] at h
    rcases mem_cons.mp h with hsign | hdigit
    · exact .inr ⟨Int.negSucc_lt_zero n,hsign⟩
    · exact .inl (Nat.isDigit_of_mem_toDigits (by decide) (by decide) hdigit)

theorem notMem_str {n : ℤ} (hdigit : c.isDigit = false) (hsign : c ≠ '-' ∨ 0 ≤ n) : c ∉ (str n).toList := by
  intro hmem
  rcases isDigit_of_mem_str hmem with h | ⟨hneg,hc⟩
  · rw [hdigit] at h
    cases h
  · rcases hsign with hsign | hsign
    · exact hsign hc
    · omega

theorem digit_range (h : c.isDigit) : 48 ≤ c.toNat ∧ c.toNat ≤ 57 := by
  simp only [Char.isDigit,Bool.and_eq_true,decide_eq_true_eq] at h
  exact ⟨UInt32.le_iff_toNat_le.mp h.1,UInt32.le_iff_toNat_le.mp h.2⟩

theorem isSpace_of_digit (h : c.isDigit) : isSpace c = false := by
  have := digit_range h
  simp [isSpace]
  omega

theorem natOfChars_toDigits (n : ℕ) : natOfChars tables (Nat.toDigits 10 n) = some n := by
  have hdigits : ∀ c ∈ Nat.toDigits 10 n, c.isDigit :=
    fun c hc => Nat.isDigit_of_mem_toDigits (by decide) (by decide) hc
  have hgroups : (Nat.toDigits 10 n).splitOn '_' = [Nat.toDigits 10 n] := by
    apply splitOn_eq_singleton
    intro hmem
    exact absurd (hdigits _ hmem) (by decide)
  have hvalues : (Nat.toDigits 10 n).mapM (digitValue tables) =
      some ((Nat.toDigits 10 n).map fun c => c.toNat - '0'.toNat) := by
    generalize Nat.toDigits 10 n = cs at hdigits
    induction cs with
    | nil => rfl
    | cons c cs ih =>
      have hc : digitValue tables c = some (c.toNat - '0'.toNat) := by
        simp [digitValue,hdigits c mem_cons_self]
      rw [mapM_cons,hc,ih fun c hc => hdigits c (mem_cons_of_mem _ hc)]
      rfl
  unfold natOfChars
  simp only [hgroups,flatten_cons,flatten_nil,append_nil,hvalues,Option.map_some, foldl_map]
  rw [if_neg]
  · exact congrArg some (Nat.ofDigitChars_toDigits (by decide) (by decide))
  · simp [Nat.toDigits_ne_nil]

theorem stripChars_eq_self {p : Char → Bool} {cs : List Char} (h : ∀ c ∈ cs, p c = false) :
    stripChars p cs = cs := by
  have hdrop : ∀ l : List Char, (∀ c ∈ l, p c = false) → l.dropWhile p = l := by
    intro l hl
    cases l with
    | nil => rfl
    | cons c l => simp [hl c mem_cons_self]
  unfold stripChars
  rw [hdrop cs h,hdrop cs.reverse fun c hc => h c (mem_reverse.mp hc),reverse_reverse]

theorem stripChars_str (n : ℤ) : stripChars isSpace (str n).toList = (str n).toList := by
  apply stripChars_eq_self
  intro c hc
  rcases isDigit_of_mem_str hc with hdigit | ⟨-,rfl⟩
  · exact isSpace_of_digit hdigit
  · decide

theorem int_str (n : ℤ) : int tables (str n) = .ok n := by
  have hread : intOfString tables (str n) = some n := by
    unfold intOfString
    rw [stripChars_str]
    cases n with
    | ofNat n =>
      have hfirst : ∀ c ∈ Nat.toDigits 10 n, c ≠ '+' ∧ c ≠ '-' := by
        intro c hc
        have hdigit := Nat.isDigit_of_mem_toDigits (by decide) (by decide) hc
        exact ⟨by rintro rfl; revert hdigit; decide,by rintro rfl; revert hdigit; decide⟩
      rw [Int.ofNat_eq_natCast,toList_str_natCast]
      split
      · rename_i cs heq
        exact absurd rfl (hfirst '+' (by simp [heq])).1
      · rename_i cs heq
        exact absurd rfl (hfirst '-' (by simp [heq])).2
      · rw [natOfChars_toDigits]
        rfl
    | negSucc n =>
      rw [toList_str_negSucc]
      simp only [natOfChars_toDigits]
      rfl
  unfold int
  rw [hread]
  rfl

theorem split_join {parts : List String} (hne : parts ≠ [])
    (h : ∀ part ∈ parts, sep ∉ part.toList) : split sep (join sep parts) = parts := by
  unfold split join
  rw [String.toList_ofList,splitOn_intercalate]
  · simp
  · intro l hl
    obtain ⟨part,hpart,rfl⟩ := mem_map.mp hl
    exact h part hpart
  · simpa using hne

theorem split_of_notMem {s : String} (h : sep ∉ s.toList) : split sep s = [s] := by
  simp [split,splitOn_eq_singleton h]

theorem split_append {a b : String} (h : sep ∉ a.toList) :
    split sep (a ++ String.singleton sep ++ b) = a :: split sep b := by
  have hlist : (a ++ String.singleton sep ++ b).toList = a.toList ++ sep :: b.toList := by
    simp
  unfold split
  rw [hlist,splitOn_append_cons_self_of_not_mem h]
  simp

theorem splitOnce_append {a b : String} (h : sep ∉ a.toList) :
    splitOnce sep (a ++ String.singleton sep ++ b) = [a,b] := by
  have hchars : ∀ c ∈ a.toList, c ≠ sep := by
    rintro c hc rfl
    exact h hc
  have hlist : (a ++ String.singleton sep ++ b).toList = a.toList ++ sep :: b.toList := by
    simp
  unfold splitOnce
  rw [hlist,dropWhile_append_of_pos (by simpa using hchars), takeWhile_append_of_pos (by simpa using hchars)]
  simp

theorem mem_join {parts : List String} (h : c ∈ (join sep parts).toList) :
    c = sep ∨ ∃ part ∈ parts, c ∈ part.toList := by
  unfold join at h
  rw [String.toList_ofList] at h
  induction parts with
  | nil => simp at h
  | cons part parts ih =>
    cases parts with
    | nil => exact .inr ⟨part,mem_singleton_self _,by simpa using h⟩
    | cons next parts =>
      simp only [map_cons,intercalate_cons_cons,mem_append, mem_singleton] at h
      rcases h with (hpart | hsep) | hrest
      · exact .inr ⟨part,mem_cons_self,hpart⟩
      · exact .inl hsep
      · rcases ih hrest with hsep | ⟨q,hq,hc⟩
        · exact .inl hsep
        · exact .inr ⟨q,mem_cons_of_mem _ hq,hc⟩

end TextrpBriij.Python
