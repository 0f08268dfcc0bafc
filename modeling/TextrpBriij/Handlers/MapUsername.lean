import TextrpBriij.Handlers.Register

/-! # Localparts for the usernames of other systems

A username from outside is a byte string. Its upper-case letters are marked or folded,
bytes outside the grammar of a localpart are escaped, and so is an underscore in front.
-/
namespace TextrpBriij.Handlers
open Python List Function

def isUpperByte (b : UInt8) : Bool := 'A' ≤ b.toChar && b.toChar ≤ 'Z'

/-- `bytes.lower` on one byte. -/
def lowerByte (b : UInt8) : UInt8 := if isUpperByte b then b+32 else b

def decodeAscii (bs : List UInt8) : Option String :=
  if bs.all (· < 128) then some (String.ofList (bs.map UInt8.toChar)) else none

/-- `UPPER_CASE_PATTERN.sub(f1, …)` on one byte. -/
def markUpper (b : UInt8) : List UInt8 :=
  if isUpperByte b || b.toChar = '_' then ['_'.toUInt8,lowerByte b] else [b]

/-- `b"=%02x"`. -/
def hexEscape (b : UInt8) : List UInt8 :=
  ['=',hexChar (b.toNat / 16),hexChar (b.toNat % 16)].map Char.toUInt8

def escapeUnless (keep : UInt8 → Bool) (b : UInt8) : List UInt8 :=
  if keep b then [b] else hexEscape b

/-- A byte that `NON_MXID_CHARACTER_PATTERN` does not match. -/
def mxidByte (b : UInt8) : Bool := mxidLocalpartAllowed b.toChar && b.toChar ≠ '='

/-- `re.sub(b"^_", b"=5f", …)`. -/
def escapeFirst : List UInt8 → List UInt8
  | [] => []
  | b :: bs => if b.toChar = '_' then ['=','5','f'].map Char.toUInt8 ++ bs else b :: bs

/-- `re.sub(b"^_", …)` after `NON_MXID_CHARACTER_PATTERN.sub(f2, …)`. -/
def escapeUsername (username : List UInt8) : List UInt8 :=
  escapeFirst (username.flatMap (escapeUnless mxidByte))

def sortUpperCase (caseSensitive : Bool) (username : List UInt8) : List UInt8 :=
  if caseSensitive then username.flatMap markUpper else username.map lowerByte

/-- `none` would be a failure of `decode("ascii")`. -/
def mapUsernameToMxidLocalpart (username : String ⊕ List UInt8) (caseSensitive : Bool) : Option String :=
  decodeAscii (escapeUsername (sortUpperCase caseSensitive (username.elim encodeUtf8 id)))

variable {keep : UInt8 → Bool} {a b x : UInt8} {s t u v : List UInt8} {caseSensitive : Bool}

theorem byte_facts : ∀ b, b.toChar.toUInt8 = b ∧ (lowerByte b).toChar = b.toChar.toLower ∧
    fromHexChars ((hexEscape b).tail.map UInt8.toChar) = some [b] ∧
    (isUpperByte b || b.toChar = '_' → (lowerByte b).toChar.toUpper = b.toChar) ∧
    ((hexEscape b).all fun x => mxidLocalpartAllowed x.toChar) ∧
    (mxidLocalpartAllowed b.toChar → b < 128) := by decide +kernel

theorem toChar_injective : Injective UInt8.toChar :=
  LeftInverse.injective (g := Char.toUInt8) fun b => (byte_facts b).1

theorem hexEscape_injective : Injective hexEscape := by
  intro a b h
  have ha := (byte_facts a).2.2.1
  rw [h,(byte_facts b).2.2.1] at ha
  simpa using ha.symm

/-- Both substitutions are codes that can be read from the left. -/
theorem flatMap_injective {f : UInt8 → List UInt8} (hne : ∀ b, f b ≠ [])
    (hf : ∀ {a b s t}, f a ++ s = f b ++ t → a = b ∧ s = t) : Injective (flatMap f) := by
  intro u v h
  induction u generalizing v with
  | nil => cases v <;> simp_all
  | cons a u ih =>
    cases v with
    | nil => simp_all
    | cons b v =>
      obtain ⟨rfl,hrest⟩ := hf h
      rw [ih hrest]

theorem markUpper_append_inj (h : markUpper a ++ s = markUpper b ++ t) : a = b ∧ s = t := by
  have hup := fun b => (byte_facts b).2.2.2.1
  have hmark : '_'.toUInt8.toChar = '_' := rfl
  unfold markUpper at h
  split at h <;> split at h
  · simp only [cons_append,nil_append,cons.injEq,true_and] at h
    have ha := hup a ‹_›
    rw [h.1,hup b ‹_›] at ha
    exact ⟨toChar_injective ha.symm,h.2⟩
  · grind
  · grind
  · simpa using h

theorem escapeUnless_append_inj (hkeep : keep '='.toUInt8 = false)
    (h : escapeUnless keep a ++ s = escapeUnless keep b ++ t) : a = b ∧ s = t := by
  unfold escapeUnless at h
  split at h <;> split at h
  · simpa using h
  · grind [hexEscape]
  · grind [hexEscape]
  · obtain ⟨hab,hst⟩ := append_inj h (by simp [hexEscape])
    exact ⟨hexEscape_injective hab,hst⟩

/-- The bytes that are kept in front. -/
def keptFirst (b : UInt8) : Bool := mxidByte b && b.toChar ≠ '_'

@[simp] theorem escapeUsername_nil : escapeUsername [] = [] := rfl

@[simp] theorem escapeUsername_cons : escapeUsername (b :: u) =
    escapeUnless keptFirst b ++ u.flatMap (escapeUnless mxidByte) := by
  unfold escapeUsername
  by_cases hb : b.toChar = '_'
  · obtain rfl : b = '_'.toUInt8 := toChar_injective hb
    rfl
  · have hesc : escapeUnless keptFirst b = escapeUnless mxidByte b := by
      simp [escapeUnless,keptFirst,hb]
    rw [hesc,flatMap_cons]
    unfold escapeUnless
    split
    · simp [escapeFirst,hb]
    · rfl

theorem escapeUnless_ne_nil (b : UInt8) : escapeUnless keep b ≠ [] := by
  unfold escapeUnless hexEscape
  split <;> simp

theorem escapeUsername_injective : Injective escapeUsername := by
  intro u v h
  rcases u with _ | ⟨a,u⟩ <;> rcases v with _ | ⟨b,v⟩
  · rfl
  · simp [escapeUnless_ne_nil] at h
  · simp [escapeUnless_ne_nil] at h
  · simp only [escapeUsername_cons] at h
    obtain ⟨rfl,hrest⟩ := escapeUnless_append_inj rfl h
    rw [flatMap_injective escapeUnless_ne_nil (escapeUnless_append_inj rfl) hrest]

theorem allowed_of_mem_escapeUnless (hkeep : ∀ b, keep b → mxidLocalpartAllowed b.toChar)
    (hx : x ∈ escapeUnless keep b) : mxidLocalpartAllowed x.toChar := by
  have hhex := (byte_facts b).2.2.2.2.1
  unfold escapeUnless at hx
  split at hx
  · simp_all
  · exact all_eq_true.mp hhex x hx

theorem allowed_of_mem_escapeUsername (hx : x ∈ escapeUsername u) :
    mxidLocalpartAllowed x.toChar := by
  cases u with
  | nil => simp at hx
  | cons b u =>
    rw [escapeUsername_cons,mem_append,mem_flatMap] at hx
    rcases hx with hx | ⟨b,-,hx⟩
    · exact allowed_of_mem_escapeUnless (by simp +contextual [keptFirst,mxidByte]) hx
    · exact allowed_of_mem_escapeUnless (by simp +contextual [mxidByte]) hx

theorem head_escapeUsername : (escapeUsername u).head? ≠ some '_'.toUInt8 := by
  cases u with
  | nil => simp
  | cons b u =>
    rw [escapeUsername_cons,escapeUnless]
    intro h
    split at h
    · obtain rfl : b = '_'.toUInt8 := by simpa using h
      contradiction
    · cases h

theorem mapUsername_eq : mapUsernameToMxidLocalpart (.inr u) caseSensitive =
    some (String.ofList ((escapeUsername (sortUpperCase caseSensitive u)).map UInt8.toChar)) := by
  have hascii := fun b => (byte_facts b).2.2.2.2.2
  rw [mapUsernameToMxidLocalpart,decodeAscii,if_pos]
  · rfl
  · exact all_eq_true.mpr fun b hb => decide_eq_true (hascii b (allowed_of_mem_escapeUsername hb))

theorem mapUsername_inj : mapUsernameToMxidLocalpart (.inr u) caseSensitive =
    mapUsernameToMxidLocalpart (.inr v) caseSensitive ↔
      sortUpperCase caseSensitive u = sortUpperCase caseSensitive v := by
  rw [mapUsername_eq,mapUsername_eq,Option.some.injEq,String.ofList_inj,
    toChar_injective.list_map.eq_iff,escapeUsername_injective.eq_iff]

theorem mapUsername_keeps_accounts_apart :
    (∀ u v, mapUsernameToMxidLocalpart (.inr u) true = mapUsernameToMxidLocalpart (.inr v) true →
      u = v) ∧
    (∀ u v, mapUsernameToMxidLocalpart (.inr u) false = mapUsernameToMxidLocalpart (.inr v) false ↔
      u.map (fun b => b.toChar.toLower) = v.map fun b => b.toChar.toLower) ∧
    ∀ u caseSensitive, ∃ localpart,
      mapUsernameToMxidLocalpart (.inr u) caseSensitive = some localpart ∧
      (∀ c ∈ localpart.toList, mxidLocalpartAllowed c) ∧ localpart.toList.head? ≠ some '_' := by
  refine ⟨?_,?_,?_⟩
  · intro u v h
    have hmarked : u.flatMap markUpper = v.flatMap markUpper := mapUsername_inj.mp h
    exact flatMap_injective (by unfold markUpper; grind) markUpper_append_inj hmarked
  · intro u v
    rw [mapUsername_inj,← toChar_injective.list_map.eq_iff]
    simp [sortUpperCase,byte_facts,Function.comp_def]
  · intro u caseSensitive
    refine ⟨_,mapUsername_eq,?_,?_⟩
    · simp only [String.toList_ofList,mem_map]
      rintro c ⟨b,hb,rfl⟩
      exact allowed_of_mem_escapeUsername hb
    · simp only [String.toList_ofList,head?_map,Ne,Option.map_eq_some_iff]
      rintro ⟨b,hb,hc⟩
      obtain rfl : b = '_'.toUInt8 := toChar_injective hc
      exact head_escapeUsername hb
end TextrpBriij.Handlers
