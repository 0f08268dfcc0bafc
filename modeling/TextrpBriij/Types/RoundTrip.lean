import TextrpBriij.Types.TokenText

/-! # Reading back the text of a token

Numbers are read back as they were written, and no separator occurs in what it separates. The
one token that is lost has a topological part of zero and writers that are ahead: the
constructor takes the zero for no topological part, the text has only the topological part.
-/
namespace TextrpBriij.Types
open Api Python Fallible List AList RoomStreamToken
open AuthChain (Dict)
open State (Iteration)

variable (tables : TextTables) (it : Iteration) {store : InstanceStore}

def InstanceStore.Inverse (store : InstanceStore) : Prop :=
  ∀ name id, store.getIdForInstance name = .ok id ↔ store.getNameFromInstanceId id = .ok name

def InstanceStore.Knows (store : InstanceStore) (t : AbstractMultiWriterStreamToken) : Prop :=
  ∀ name ∈ t.instanceMap.keys, ∃ id, store.getIdForInstance name = .ok id

@[simp] theorem orRaise_ok {α : Type} (a : α) (e : Error) : orRaise (.ok a) e = .ok a := rfl

theorem notMem_entry {id pos : ℤ} {c : Char} (hdigit : c.isDigit = false)
    (hother : c ≠ '-' ∧ c ≠ '.') : c ∉ (str id ++ "." ++ str pos).toList := by
  have hid : c ∉ (str id).toList := notMem_str hdigit (.inl hother.1)
  have hpos : c ∉ (str pos).toList := notMem_str hdigit (.inl hother.1)
  simp [hid,hpos,hother.2]

theorem decodeEntry_eq (hinverse : store.Inverse) {name : String} {id : ℤ}
    (hid : store.getIdForInstance name = .ok id) (pos : ℤ) (d : Dict String ℤ) :
    decodeEntry tables store d (str id ++ "." ++ str pos) = .ok (d.insert name pos) := by
  have hsplit : split '.' (str id ++ "." ++ str pos) = [str id,str pos] := by
    have hdot : ∀ n, '.' ∉ (str n).toList := fun n => notMem_str (by decide) (.inl (by decide))
    exact (split_append (hdot id)).trans (by rw [split_of_notMem (hdot pos)])
  unfold decodeEntry
  rw [hsplit]
  simp [int_str,(hinverse name id).mp hid]

namespace AbstractMultiWriterStreamToken
variable {t : AbstractMultiWriterStreamToken}

theorem encodedEntries_spec (hinverse : store.Inverse) (hknown : store.Knows t) :
    ∃ entries instanceMap, t.encodedEntries it store = .ok entries ∧
      (entries = [] ↔ t.instanceMap.entries = []) ∧
      (∀ entry ∈ entries, ∀ c : Char, c.isDigit = false → c ≠ '-' ∧ c ≠ '.' → c ∉ entry.toList) ∧
      entries.foldlM (decodeEntry tables store) ∅ = .ok instanceMap ∧
      ∀ w, instanceMap.lookup w = t.instanceMap.lookup w := by
  have hperm := it.perm 24 t.instanceMap.entries
  have hlookup : ∀ entry ∈ it.order 24 t.instanceMap.entries, t.instanceMap.lookup entry.1 = some entry.2 :=
    fun entry hentry => mem_lookup_iff.mpr (hperm.mem_iff.mp hentry)
  choose! id hid using hknown
  have hids : ∀ entry ∈ it.order 24 t.instanceMap.entries,
      store.getIdForInstance entry.1 = .ok (id entry.1) := by
    intro entry hentry
    apply hid
    have hsome : (t.instanceMap.lookup entry.1).isSome := by
      rw [hlookup entry hentry]
      rfl
    exact lookup_isSome.mp hsome
  have hfilter : (it.order 24 t.instanceMap.entries).filter (fun entry => ¬entry.2 ≤ t.stream) =
      it.order 24 t.instanceMap.entries := by
    rw [filter_eq_self]
    intro entry hentry
    have := t.ahead entry.1 entry.2 (hlookup entry hentry)
    simpa using this
  refine ⟨(it.order 24 t.instanceMap.entries).map fun entry =>
    str (id entry.1) ++ "." ++ str entry.2,
    SparseClock.collect (it.order 24 t.instanceMap.entries) some,?_,?_,?_,?_,?_⟩
  · unfold encodedEntries
    rw [hfilter]
    apply mapM_eq_ok
    intro entry hentry
    rw [hids entry hentry]
    rfl
  · rw [map_eq_nil_iff]
    constructor
    · intro h
      rw [h] at hperm
      exact hperm.nil_eq.symm
    · intro h
      rw [h] at hperm ⊢
      exact hperm.eq_nil
  · intro entry hentry c hdigit hother
    obtain ⟨e,-,rfl⟩ := mem_map.mp hentry
    exact notMem_entry hdigit hother
  · rw [foldlM_map]
    apply foldlM_eq_ok
    intro entry hentry d
    exact decodeEntry_eq tables hinverse (hids entry hentry) entry.2 d
  · intro w
    rw [SparseClock.lookup_collect_perm hperm]
    cases t.instanceMap.lookup w <;> rfl

theorem encode_spec (hinverse : store.Inverse) (hknown : store.Knows t) (plain : String) :
    t.instanceMap.entries = [] ∧ t.encode it store plain = .ok (plain ++ str t.stream) ∨
      ∃ text instanceMap, t.encode it store plain = .ok ("m" ++ text) ∧ '_' ∉ text.toList ∧
        decode tables store text = .ok (t.stream,instanceMap) ∧
        ∀ w, instanceMap.lookup w = t.instanceMap.lookup w := by
  by_cases hempty : t.instanceMap.entries = []
  · left
    simp [encode,hempty]
  right
  obtain ⟨entries,instanceMap,hentries,hnil,hchars,hdecode,hlookup⟩ :=
    encodedEntries_spec tables it hinverse hknown
  have hne : entries ≠ [] := fun h => hempty (hnil.mp h)
  refine ⟨str t.stream ++ "~" ++ join '~' entries,instanceMap,?_,?_,?_,hlookup⟩
  · simp only [encode,if_pos hempty,hentries,ok_bind,if_pos hne,pure_eq]
  · intro hmem
    simp only [String.toList_append,mem_append] at hmem
    rcases hmem with (hstream | hsep) | hjoin
    · exact notMem_str (by decide) (.inl (by decide)) hstream
    · revert hsep
      decide
    · rcases mem_join hjoin with hsep | ⟨entry,hentry,hc⟩
      · revert hsep
        decide
      · exact hchars entry hentry '_' (by decide) (by decide) hc
  · have hsplit : split '~' (str t.stream ++ "~" ++ join '~' entries) = str t.stream :: entries := by
      have hstream : '~' ∉ (str t.stream).toList := notMem_str (by decide) (.inl (by decide))
      have hjoin := split_join hne fun entry hentry =>
        hchars entry hentry '~' (by decide) (by decide)
      exact (split_append hstream).trans (by rw [hjoin])
    unfold decode
    simp [hsplit,int_str,hdecode]

end AbstractMultiWriterStreamToken

theorem str_eq_cons {n : ℤ} (hn : 0 ≤ n) : ∃ c cs, (str n).toList = c :: cs ∧ c.isDigit := by
  obtain ⟨m,rfl⟩ := Int.eq_ofNat_of_zero_le hn
  have hdigits := toList_str_natCast m
  cases hlist : (str m).toList with
  | nil =>
    rw [hlist] at hdigits
    exact absurd hdigits.symm Nat.toDigits_ne_nil
  | cons c cs =>
    refine ⟨c,cs,rfl,?_⟩
    apply Nat.isDigit_of_mem_toDigits (b := 10) (n := m) (by decide) (by decide)
    rw [← hdigits,hlist]
    exact mem_cons_self

theorem toList_cons (c : Char) (text : String) : (String.singleton c ++ text).toList = c :: text.toList := by
  simp

theorem MultiWriterStreamToken.parse_toString (hinverse : store.Inverse)
    {t : MultiWriterStreamToken} (hknown : store.Knows t.toAbstractMultiWriterStreamToken)
    (hstream : 0 ≤ t.stream) : ∃ string t', t.toString it store = .ok string ∧ '_' ∉ string.toList ∧
      MultiWriterStreamToken.parse tables store string = .ok t' ∧
      t'.eq t.toAbstractMultiWriterStreamToken := by
  rcases AbstractMultiWriterStreamToken.encode_spec tables it hinverse hknown "" with
    ⟨hempty,htext⟩ | ⟨text,instanceMap,htext,hchars,hdecode,hlookup⟩
  · obtain ⟨c,cs,hlist,hdigit⟩ := str_eq_cons hstream
    have hisdigit : isdigit tables c := by
      have := digit_range hdigit
      rw [isdigit,if_pos (by omega),hdigit]
    have hmap : t.instanceMap = ∅ := ext hempty
    refine ⟨str t.stream,⟨⟨t.stream,∅,SparseClock.ahead_empty _⟩⟩,?_,?_,?_,?_⟩
    · rw [toString,htext,String.empty_append]
    · exact notMem_str (by decide) (.inl (by decide))
    · simp only [parse,hlist,hisdigit,if_true,int_str,ok_bind, new_eq_ok (SparseClock.ahead_empty _),orRaise_ok]
    · simp [AbstractMultiWriterStreamToken.eq_iff,hmap]
  · have hahead := t.ahead.congr hlookup
    have hlist : ("m" ++ text).toList = 'm' :: text.toList := toList_cons 'm' text
    refine ⟨"m" ++ text,⟨⟨t.stream,instanceMap,hahead⟩⟩,htext,?_,?_,?_⟩
    · simp [hchars]
    · have hisdigit : isdigit tables 'm' = false := by
        rw [isdigit,if_pos (by decide)]
        decide
      simp only [parse,hlist,hisdigit,if_true,String.ofList_toList,hdecode,ok_bind,
        new_eq_ok hahead,orRaise_ok,Bool.false_eq_true,if_false]
    · simpa [AbstractMultiWriterStreamToken.eq_iff] using hlookup

/-- The token has no topological part, or no writer is ahead. -/
def RoomStreamToken.Exclusive (t : RoomStreamToken) : Prop :=
  t.topological = none ∨ t.instanceMap.entries = []

/-- What is read back is the token, up to writers that are ahead beside a topological part. -/
theorem RoomStreamToken.parse_toString (hinverse : store.Inverse) {t : RoomStreamToken}
    (hknown : store.Knows t.toAbstractMultiWriterStreamToken)
    (htopological : ∀ n ∈ t.topological, 0 ≤ n) :
    ∃ string t', t.toString it store = .ok string ∧ '_' ∉ string.toList ∧
      parse tables store string = .ok t' ∧ (t'.eq t ↔ t.Exclusive) := by
  cases htop : t.topological with
  | some n =>
    have hn : 0 ≤ n := htopological n htop
    have hlist : ("t" ++ (str n ++ "-" ++ str t.stream)).toList =
        't' :: (str n ++ "-" ++ str t.stream).toList := toList_cons 't' _
    have hsplit : splitOnce '-' (str n ++ "-" ++ str t.stream) = [str n,str t.stream] :=
      splitOnce_append (notMem_str (by decide) (.inr hn))
    have hboth : ¬((∅ : Dict String ℤ).entries ≠ [] ∧ isSet (some n)) := fun h => h.1 rfl
    refine ⟨"t" ++ (str n ++ "-" ++ str t.stream),
      ⟨⟨t.stream,∅,SparseClock.ahead_empty _⟩,some n,hboth⟩,?_,?_,?_,?_⟩
    · simp only [toString,htop,pure_eq]
    · have hchars : ∀ n, '_' ∉ (str n).toList := fun n => notMem_str (by decide) (.inl (by decide))
      simp [hchars]
    · simp only [parse,hlist,String.ofList_toList,parseAs,hsplit,int_str,ok_bind]
      rfl
    · -- Without its writers it is the same token only if there were none.
      simp only [eq_iff,Exclusive,htop,true_and,and_true,reduceCtorEq,false_or]
      constructor
      · intro hlookup
        rw [eq_nil_iff_forall_not_mem]
        intro entry hentry
        have hsome := mem_lookup_iff.mpr hentry
        rw [← hlookup] at hsome
        cases hsome
      · intro hempty w
        rw [ext (t := ∅) hempty]
  | none =>
    have hboth : ∀ d : Dict String ℤ, ¬(d.entries ≠ [] ∧ isSet none) := fun _ h => by cases h.2
    have hexclusive : t.Exclusive := .inl htop
    rcases AbstractMultiWriterStreamToken.encode_spec tables it hinverse hknown "s" with
      ⟨hempty,htext⟩ | ⟨text,instanceMap,htext,hchars,hdecode,hlookup⟩
    · have hlist : ("s" ++ str t.stream).toList = 's' :: (str t.stream).toList := toList_cons 's' _
      have hmap : t.instanceMap = ∅ := ext hempty
      refine ⟨"s" ++ str t.stream, ⟨⟨t.stream,∅,SparseClock.ahead_empty _⟩,none,hboth ∅⟩,?_,?_,?_,?_⟩
      · simp only [toString,htop,htext]
      · have hstream : '_' ∉ (str t.stream).toList := notMem_str (by decide) (.inl (by decide))
        simp [hstream]
      · simp only [parse,hlist,String.ofList_toList,parseAs,if_true,int_str,ok_bind]
        rfl
      · simp [eq_iff,hmap,htop,hexclusive]
    · have hahead := t.ahead.congr hlookup
      have hlist : ("m" ++ text).toList = 'm' :: text.toList := toList_cons 'm' text
      refine ⟨"m" ++ text,⟨⟨t.stream,instanceMap,hahead⟩,none,hboth instanceMap⟩,?_,?_,?_,?_⟩
      · simp only [toString,htop,htext]
      · simp [hchars]
      · simp only [parse,hlist,String.ofList_toList,parseAs,hdecode,ok_bind,
          new_eq_ok (hboth instanceMap) hahead]
        rfl
      · simp [eq_iff,hlookup,htop,hexclusive]

/-- The writers of the token have numbers, and the positions are not negative. -/
structure StreamToken.Writable (store : InstanceStore) (t : StreamToken) : Prop where
  room : store.Knows t.roomKey.toAbstractMultiWriterStreamToken
  receipt : store.Knows t.receiptKey.toAbstractMultiWriterStreamToken
  deviceList : store.Knows t.deviceListKey.toAbstractMultiWriterStreamToken
  topological : ∀ n ∈ t.roomKey.topological, 0 ≤ n
  receiptStream : 0 ≤ t.receiptKey.stream
  deviceListStream : 0 ≤ t.deviceListKey.stream

theorem StreamToken.fromString_toString (hinverse : store.Inverse) {t : StreamToken}
    (h : t.Writable store) : ∃ string t', t.toString it store = .ok string ∧
      StreamToken.fromString tables store string = .ok t' ∧
      (t'.eq t ↔ t.roomKey.Exclusive) := by
  obtain ⟨room,room',hroom,hroomChars,hroomParse,hroomEq⟩ :=
    parse_toString tables it hinverse h.room h.topological
  obtain ⟨receipt,receipt',hreceipt,hreceiptChars,hreceiptParse,hreceiptEq⟩ :=
    MultiWriterStreamToken.parse_toString tables it hinverse h.receipt h.receiptStream
  obtain ⟨devices,devices',hdevices,hdevicesChars,hdevicesParse,hdevicesEq⟩ :=
    MultiWriterStreamToken.parse_toString tables it hinverse h.deviceList h.deviceListStream
  have hnumber : ∀ n, '_' ∉ (str n).toList := fun n => notMem_str (by decide) (.inl (by decide))
  have hsplit : split '_' (join '_' (t.keys room receipt devices)) = t.keys room receipt devices := by
    apply split_join
    · simp [keys]
    · simp [keys,hroomChars,hreceiptChars,hdevicesChars,hnumber]
  refine ⟨join '_' (t.keys room receipt devices),⟨room',t.presenceKey,t.typingKey,receipt',t.accountDataKey,t.pushRulesKey,
    t.toDeviceKey,devices',t.groupsKey,t.unPartialStatedRoomsKey,t.threadSubscriptionsKey,
    t.stickyEventsKey⟩,?_,?_,?_⟩
  · simp [toString,hroom,hreceipt,hdevices]
  · simp only [fromString,hsplit]
    simp [keys,parseKeys,hroomParse,hreceiptParse,hdevicesParse,int_str]
  · simp [eq,hroomEq,hreceiptEq,hdevicesEq]

theorem SlidingSyncStreamToken.fromString_toString (hinverse : store.Inverse)
    {t : SlidingSyncStreamToken} (h : t.streamToken.Writable store) :
    ∃ string t', t.toString it store = .ok string ∧
      SlidingSyncStreamToken.fromString tables store string = .ok t' ∧
      (t'.eq t ↔ t.streamToken.roomKey.Exclusive) := by
  obtain ⟨text,streamToken,htext,hparse,heq⟩ :=
    StreamToken.fromString_toString tables it hinverse h
  have hsplit : splitOnce '/' (str t.connectionPosition ++ "/" ++ text) = [str t.connectionPosition,text] :=
    splitOnce_append (notMem_str (by decide) (.inl (by decide)))
  refine ⟨str t.connectionPosition ++ "/" ++ text,⟨streamToken,t.connectionPosition⟩,?_,?_,?_⟩
  · simp [toString,htext]
  · simp [fromString,hsplit,int_str,hparse]
  · simp [eq,heq]

/-- The text that is written is read back as an equal token. -/
def RoundTrips {T : Type} (written : Except Error String) (parse : String → Except Error T)
    (equal : T → Bool) : Prop :=
  ∃ string t, written = .ok string ∧ parse string = .ok t ∧ equal t = true

theorem roundTrips_iff {T : Type} {written : Except Error String}
    {parse : String → Except Error T} {equal : T → Bool} {P : Prop}
    (h : ∃ string t, written = .ok string ∧ parse string = .ok t ∧ (equal t ↔ P)) :
    RoundTrips written parse equal ↔ P := by
  obtain ⟨string,t,hwritten,hparse,hequal⟩ := h
  constructor
  · intro hround
    obtain ⟨string',t',hwritten',hparse',hequal'⟩ := hround
    cases hwritten.symm.trans hwritten'
    cases hparse.symm.trans hparse'
    exact hequal.mp hequal'
  · intro hP
    exact ⟨string,t,hwritten,hparse,hequal.mpr hP⟩

/-- Tokens are read back from their text exactly if they do not have a topological part and
writers that are ahead. -/
theorem stream_tokens_round_trip_iff (tables : TextTables) (it : Iteration)
    (store : InstanceStore) (hinverse : store.Inverse) :
    (∀ t : RoomStreamToken, store.Knows t.toAbstractMultiWriterStreamToken → 0 ≤ t.stream →
      (∀ n ∈ t.topological, 0 ≤ n) →
      (RoundTrips (t.toString it store) (parse tables store)
        (fun t' => t'.eq t) ↔ t.Exclusive)) ∧
    (∀ t : MultiWriterStreamToken, store.Knows t.toAbstractMultiWriterStreamToken →
      0 ≤ t.stream →
      RoundTrips (t.toString it store) (MultiWriterStreamToken.parse tables store)
        (fun t' => t'.eq t.toAbstractMultiWriterStreamToken)) ∧
    (∀ t : StreamToken, t.Writable store →
      (RoundTrips (t.toString it store) (StreamToken.fromString tables store)
        (fun t' => t'.eq t) ↔ t.roomKey.Exclusive)) ∧
    ∀ t : SlidingSyncStreamToken, t.streamToken.Writable store →
      (RoundTrips (t.toString it store) (SlidingSyncStreamToken.fromString tables store)
        (fun t' => t'.eq t) ↔ t.streamToken.roomKey.Exclusive) := by
  refine ⟨?_,?_,?_,?_⟩
  · intro t hknown _ htopological
    obtain ⟨string,t',hstring,-,hparse,heq⟩ :=
      parse_toString tables it hinverse hknown htopological
    exact roundTrips_iff ⟨string,t',hstring,hparse,heq⟩
  · intro t hknown hstream
    obtain ⟨string,t',hstring,-,hparse,heq⟩ :=
      MultiWriterStreamToken.parse_toString tables it hinverse hknown hstream
    exact ⟨string,t',hstring,hparse,heq⟩
  · intro t h
    exact roundTrips_iff (StreamToken.fromString_toString tables it hinverse h)
  · intro t h
    exact roundTrips_iff (SlidingSyncStreamToken.fromString_toString tables it hinverse h)

/-! A store with two writers. -/

def asciiTables : TextTables := ⟨fun _ => none,fun _ => false,fun s => "'" ++ s ++ "'"⟩

def twoWriters : InstanceStore where
  getIdForInstance := fun name =>
    if name = "master" then .ok 1 else if name = "worker" then .ok 2
    else .error (.storeError 404 "No row found" .unknown)
  getNameFromInstanceId := fun id =>
    if id = 1 then .ok "master" else if id = 2 then .ok "worker"
    else .error (.storeError 404 "No row found" .unknown)

theorem twoWriters_inverse : twoWriters.Inverse := by
  intro name id
  simp only [twoWriters]
  constructor
  all_goals
    intro h
    split at h
    · rename_i heq
      cases h
      simp [heq]
    · split at h
      · rename_i heq
        cases h
        simp [heq]
      · cases h

def workerAhead (topological : Option ℤ) (h : isSet topological = false) : RoomStreamToken where
  stream := 5
  instanceMap := AList.singleton "worker" 7
  ahead := by decide
  topological := topological
  notBoth := by simp [h]

theorem twoWriters_knows (topological : Option ℤ) (h : isSet topological = false) :
    twoWriters.Knows (workerAhead topological h).toAbstractMultiWriterStreamToken := by
  intro name hname
  obtain rfl : name = "worker" := by simpa [workerAhead] using hname
  exact ⟨2,rfl⟩

theorem stream_tokens_round_trip_worker :
    RoundTrips ((workerAhead none rfl).toString .listed twoWriters)
      (parse asciiTables twoWriters)
      (fun t' => t'.eq (workerAhead none rfl)) :=
  ((stream_tokens_round_trip_iff asciiTables .listed twoWriters twoWriters_inverse).1
    (workerAhead none rfl) (twoWriters_knows none rfl) (by decide) (by simp [workerAhead])).mpr (.inl rfl)

/-- The constructor accepts a topological part of zero beside a worker that is ahead, and the
text of this token does not have the worker. -/
theorem zero_topological_loses_writers :
    new (some 0) 5 (AList.singleton "worker" 7) =
        .ok (workerAhead (some 0) rfl) ∧
      (workerAhead (some 0) rfl).toString .listed twoWriters = .ok "t0-5" ∧
      ¬RoundTrips ((workerAhead (some 0) rfl).toString .listed twoWriters)
        (parse asciiTables twoWriters)
        (fun t' => t'.eq (workerAhead (some 0) rfl)) := by
  refine ⟨rfl,rfl,?_⟩
  obtain ⟨string,t',hstring,-,hparse,heq⟩ := parse_toString asciiTables .listed
    twoWriters_inverse (twoWriters_knows (some 0) rfl) (by simp [workerAhead])
  rw [roundTrips_iff ⟨string,t',hstring,hparse,heq⟩]
  simp [RoomStreamToken.Exclusive,workerAhead]

/-! Texts that are not tokens are refused. -/

def IsBadRequest : Error → Prop
  | .synapseError code _ _ => code = 400
  | _ => False

def NotCancelled (e : Error) : Prop := e ≠ .raised "CancelledError"

/-- Looking up the name of a writer is not cancelled. -/
def InstanceStore.Answers (store : InstanceStore) : Prop :=
  ∀ id, RaisesOnly NotCancelled (store.getNameFromInstanceId id)

theorem raisesOnly_orRaise {α : Type} {x : Except Error α} {e : Error}
    (hx : RaisesOnly NotCancelled x) (he : IsBadRequest e) : RaisesOnly IsBadRequest (orRaise x e) := by
  cases x with
  | ok a => exact raisesOnly_ok a
  | error raised =>
    have hraised : raised ≠ .raised "CancelledError" := hx raised rfl
    simpa [orRaise,hraised] using he

theorem notCancelled_of_badRequest {α : Type} {x : Except Error α} (h : RaisesOnly IsBadRequest x) :
    RaisesOnly NotCancelled x := by
  rintro _ he rfl
  exact h _ he

@[simp] theorem notCancelled_int (s : String) : RaisesOnly NotCancelled (int tables s) := by
  unfold int
  split <;> simp [NotCancelled]

@[simp] theorem MultiWriterStreamToken.notCancelled_new (stream : ℤ) (instanceMap : Dict String ℤ) :
    RaisesOnly NotCancelled (new stream instanceMap) := by
  unfold new
  split <;> simp [NotCancelled]

@[simp] theorem RoomStreamToken.notCancelled_new (topological : Option ℤ) (stream : ℤ)
    (instanceMap : Dict String ℤ) : RaisesOnly NotCancelled (new topological stream instanceMap) := by
  unfold new
  split_ifs <;> simp [NotCancelled]

section
variable (hstore : store.Answers)
include hstore

theorem notCancelled_decode (text : String) : RaisesOnly NotCancelled (decode tables store text) := by
  have hentry : ∀ d part, RaisesOnly NotCancelled (decodeEntry tables store d part) := by
    intro d part
    unfold decodeEntry
    split
    · simp
    split
    · simp [raisesOnly_bind,hstore _]
    · simp [NotCancelled]
  unfold decode
  split
  · simp [NotCancelled]
  · simp [raisesOnly_bind,raisesOnly_foldlM hentry]

theorem MultiWriterStreamToken.badRequest_parse (s : String) :
    RaisesOnly IsBadRequest (parse tables store s) := by
  refine raisesOnly_orRaise ?_ rfl
  split
  · simp [NotCancelled]
  · simp [raisesOnly_ite,raisesOnly_bind,notCancelled_decode tables hstore,NotCancelled]

theorem RoomStreamToken.notCancelled_parseAs (c : Char) (text : String) :
    RaisesOnly NotCancelled (parseAs tables store c text) := by
  unfold parseAs
  split
  · simp [raisesOnly_bind]
  split
  · split
    · simp [raisesOnly_bind]
    · simp [NotCancelled]
  · simp [raisesOnly_bind,notCancelled_decode tables hstore]

/-- The first check of `parse` fails to format its message. -/
theorem RoomStreamToken.raises_parse (s : String) : RaisesOnly NotCancelled (parse tables store s) ∧
    (RaisesOnly IsBadRequest (parse tables store s) ↔ ∃ c ∈ ['s','t','m'], s.toList.head? = some c) := by
  unfold parse
  cases s.toList with
  | nil => simp [IsBadRequest,NotCancelled]
  | cons c rest =>
    dsimp only
    split
    · rename_i hc
      simpa [IsBadRequest,NotCancelled] using hc
    · rename_i hc
      have hparse := notCancelled_parseAs tables hstore c (String.ofList rest)
      exact ⟨notCancelled_of_badRequest (raisesOnly_orRaise hparse rfl),
        iff_of_true (raisesOnly_orRaise hparse rfl) ⟨c,not_not.mp hc,rfl⟩⟩

theorem StreamToken.badRequest_fromString (s : String) :
    RaisesOnly IsBadRequest (fromString tables store s) := by
  have hmulti : ∀ s, RaisesOnly NotCancelled (MultiWriterStreamToken.parse tables store s) :=
    fun s => notCancelled_of_badRequest (MultiWriterStreamToken.badRequest_parse tables hstore s)
  refine raisesOnly_orRaise ?_ rfl
  unfold parseKeys
  split
  · simp [raisesOnly_bind,(RoomStreamToken.raises_parse tables hstore _).1,hmulti]
  · simp [NotCancelled]

theorem SlidingSyncStreamToken.badRequest_fromString (s : String) :
    RaisesOnly IsBadRequest (fromString tables store s) := by
  refine raisesOnly_orRaise ?_ rfl
  split
  · simp [raisesOnly_bind,notCancelled_of_badRequest (StreamToken.badRequest_fromString tables hstore _)]
  · simp [NotCancelled]

end

/-- Every text is a token or refused with code 400, except that for a room token whose first letter
is wrong the message cannot be made. -/
theorem tokens_refused_iff (tables : TextTables) (store : InstanceStore) (hstore : store.Answers)
    (s : String) : (RaisesOnly IsBadRequest (RoomStreamToken.parse tables store s) ∧
      RaisesOnly IsBadRequest (MultiWriterStreamToken.parse tables store s) ∧
      RaisesOnly IsBadRequest (StreamToken.fromString tables store s) ∧
      RaisesOnly IsBadRequest (SlidingSyncStreamToken.fromString tables store s)) ↔
      ∃ c ∈ ['s','t','m'], s.toList.head? = some c := by
  rw [(RoomStreamToken.raises_parse tables hstore s).2]
  exact and_iff_left ⟨MultiWriterStreamToken.badRequest_parse tables hstore s,
    StreamToken.badRequest_fromString tables hstore s,
    SlidingSyncStreamToken.badRequest_fromString tables hstore s⟩

theorem tokens_refused_two_writers :
    RaisesOnly IsBadRequest (RoomStreamToken.parse asciiTables twoWriters "s~") := by
  have hanswers : twoWriters.Answers := by
    intro id
    simp only [twoWriters]
    split_ifs <;> simp [NotCancelled]
  exact ((tokens_refused_iff asciiTables twoWriters hanswers "s~").mpr ⟨'s',by decide,rfl⟩).1

theorem wrong_letter_raises_valueError :
    RoomStreamToken.parse asciiTables twoWriters "x" = .error (.raised "ValueError") ∧
      ¬IsBadRequest (.raised "ValueError") := ⟨rfl,id⟩

end TextrpBriij.Types
