import TextrpBriij.Foundation.Paging
import TextrpBriij.Foundation.Runs

/-! # The to-device inbox

A client deletes what it has acknowledged, batch by batch, and then reads on from its token.
Between any two of these steps other messages are stored and the stream moves on.
-/
namespace TextrpBriij.Storage.DeviceInbox
open Paging List Option Runs

structure Row (α : Type) where
  userId : String
  deviceId : String
  streamId : ℕ
  messageJson : α
deriving DecidableEq

variable {α : Type} {userId deviceId : String}

def inRange (userId deviceId : String) (fromStreamId toStreamId : ℕ) (row : Row α) : Bool :=
  row.userId = userId ∧ row.deviceId = deviceId ∧ fromStreamId < row.streamId ∧ row.streamId ≤ toStreamId

def selectPage (userId deviceId : String) (fromStreamId toStreamId limit : ℕ)
    (rows : List (Row α)) : List (Row α) :=
  (orderBy Row.streamId (rows.filter (inRange userId deviceId fromStreamId toStreamId))).take limit

/-- The rows that are returned, and the position that the next call begins after. -/
def getMessagesForDevice (hasEntityChanged : Bool) (userId deviceId : String)
    (fromStreamId toStreamId limit : ℕ) (rows : List (Row α)) : List (Row α) × ℕ :=
  if !hasEntityChanged then ([],toStreamId)
  else
    let messages := selectPage userId deviceId fromStreamId toStreamId limit rows
    let lastProcessed := (messages.getLast?.map Row.streamId).getD toStreamId
    (messages,if messages.length = limit then lastProcessed else toStreamId)

/-- Where the next batch begins if there may be one, how many rows went, and those left. -/
def deleteMessagesForDeviceBetween (userId deviceId : String) (fromStreamId : Option ℕ)
    (toStreamId limit : ℕ) (rows : List (Row α)) : Option ℕ × ℕ × List (Row α) :=
  let start := fromStreamId.getD 0
  match ((selectPage userId deviceId start toStreamId limit rows).map Row.streamId).max? with
  | none => (none,0,rows)
  | some maxStreamId =>
    let deleted := inRange userId deviceId start maxStreamId
    let numDeleted := rows.countP deleted
    (if numDeleted < limit then none else some maxStreamId,numDeleted, rows.filter fun row => !deleted row)

/-- What the client is doing; a call that deletes ends with the number of deleted rows. -/
inductive Phase where
  | idle
  | deleting (fromStreamId : Option ℕ) (count : ℕ)
  | deleted (count : ℕ)
deriving DecidableEq

/-- Besides the table and the client, `added` and `returned` are the rows there ever were and
those that the client was given. -/
structure State (α : Type) where
  rows : List (Row α)
  current : ℕ
  lastDeleted : Option ℕ
  phase : Phase
  token : ℕ
  added : List (Row α)
  returned : List (Row α)

inductive Action (α : Type) where
  | add (row : Row α)
  | advance (current : ℕ)
  | startDelete (hasEntityChanged : Bool)
  | deleteBatch
  | read (limit : ℕ) (hasEntityChanged : Bool)

/-- Stream IDs are unique for a device. -/
def Apart (a b : Row α) : Prop :=
  a.userId = b.userId → a.deviceId = b.deviceId → a.streamId ≠ b.streamId

instance decidableApart (a b : Row α) : Decidable (Apart a b) :=
  inferInstanceAs (Decidable (_ → _ → _))

/-- The change cache says no only where the user has no message up to the current token. -/
def NoFalseNegative (userId : String) (s : State α) (hasEntityChanged : Bool) : Prop :=
  hasEntityChanged = false → ∀ row ∈ s.rows, row.userId = userId → row.streamId ≤ s.current →
    row.streamId ≤ s.token

instance decidableNoFalseNegative (s : State α) (changed : Bool) :
    Decidable (NoFalseNegative userId s changed) :=
  inferInstanceAs (Decidable (_ → ∀ row ∈ s.rows, _))

def finishDelete (s : State α) (count : ℕ) : State α :=
  { s with
    phase := .deleted count
    lastDeleted := some (max (s.lastDeleted.getD 0) s.token) }

def step (userId deviceId : String) (s : State α) : Action α → Option (State α)
  | .add row =>
    if s.current < row.streamId ∧ ∀ other ∈ s.added, Apart other row then
      some { s with
        rows := s.rows ++ [row]
        added := s.added ++ [row] }
    else none
  | .advance current => if s.current ≤ current then some { s with current } else none
  | .startDelete hasEntityChanged =>
    match s.phase with
    | .idle =>
      let skip := s.lastDeleted.getD 0 ≠ 0 ∧ !hasEntityChanged
      some { s with phase := if skip then .deleted 0 else .deleting none 0 }
    | _ => none
  | .deleteBatch =>
    match s.phase with
    | .deleting fromStreamId count =>
      match deleteMessagesForDeviceBetween userId deviceId fromStreamId s.token 1000 s.rows with
      | (none,n,rows) => some (finishDelete { s with rows } (count + n))
      | (some next,n,rows) => some { s with
          rows
          phase := .deleting (some next) (count + n) }
    | _ => none
  | .read limit hasEntityChanged =>
    match s.phase with
    | .deleted _ =>
      if 1 ≤ limit ∧ NoFalseNegative userId s hasEntityChanged then
        let (messages,token) := getMessagesForDevice hasEntityChanged userId deviceId s.token
          s.current limit s.rows
        some { s with
          phase := .idle
          token
          returned := s.returned ++ messages }
      else none
    | _ => none

section calls
variable {rows : List (Row α)} {row : Row α} {fromId toId limit : ℕ}

@[simp] theorem inRange_iff : inRange userId deviceId fromId toId row ↔
    row.userId = userId ∧ row.deviceId = deviceId ∧ fromId < row.streamId ∧ row.streamId ≤ toId := by
  simp [inRange]

theorem orderBy_inRange (h : rows.Pairwise Apart) : Increasing Row.streamId
      (orderBy Row.streamId (rows.filter (inRange userId deviceId fromId toId))) := by
  apply orderBy_increasing
  refine pairwise_map.mpr ((h.filter _).imp_of_mem ?_)
  intro a b ha hb hab
  obtain ⟨hua,hda,-⟩ := inRange_iff.mp (mem_filter.mp ha).2
  obtain ⟨hub,hdb,-⟩ := inRange_iff.mp (mem_filter.mp hb).2
  exact hab (hua.trans hub.symm) (hda.trans hdb.symm)

theorem mem_of_mem_selectPage (h : row ∈ selectPage userId deviceId fromId toId limit rows) :
    row ∈ rows ∧ inRange userId deviceId fromId toId row :=
  mem_filter.mp (orderBy_perm.mem_iff.mp (mem_of_mem_take h))

theorem mem_selectPage_iff {last : Row α} (h : rows.Pairwise Apart)
    (hlast : (selectPage userId deviceId fromId toId limit rows).getLast? = some last) :
    row ∈ selectPage userId deviceId fromId toId limit rows ↔
      row ∈ rows ∧ inRange userId deviceId fromId last.streamId row := by
  have hsorted := @orderBy_inRange α userId deviceId rows fromId toId h
  have hmem := mem_of_mem_selectPage (mem_of_getLast? hlast)
  obtain ⟨init,hinit⟩ := getLast?_eq_some_iff.mp hlast
  rw [hinit]
  unfold selectPage at hinit
  rw [← take_append_drop limit (orderBy _ _),hinit] at hsorted
  obtain ⟨hpage,-,hafter⟩ := pairwise_append.mp hsorted
  constructor
  · intro hrow
    obtain ⟨hrows,hrange⟩ := mem_of_mem_selectPage (hinit ▸ hrow)
    obtain ⟨hu,hd,hfrom,-⟩ := inRange_iff.mp hrange
    refine ⟨hrows,inRange_iff.mpr ⟨hu,hd,hfrom,?_⟩⟩
    rcases mem_append.mp hrow with hbefore | hsame
    · exact ((pairwise_append.mp hpage).2.2 row hbefore last (by simp)).le
    · rw [mem_singleton.mp hsame]
  · rintro ⟨hrows,hrange⟩
    obtain ⟨hu,hd,hfrom,hle⟩ := inRange_iff.mp hrange
    have hto := (inRange_iff.mp hmem.2).2.2.2
    have hin := mem_filter.mpr ⟨hrows,inRange_iff.mpr ⟨hu,hd,hfrom,hle.trans hto⟩⟩
    have hall := (@orderBy_perm _ _ _ Row.streamId _).mem_iff.mpr hin
    rw [← take_append_drop limit (orderBy _ _),hinit] at hall
    refine (mem_append.mp hall).resolve_right fun hdrop => ?_
    exact absurd (hafter last (by simp) row hdrop) hle.not_gt

variable {messages rest : List (Row α)} {pos n limit : ℕ}

theorem getMessagesForDevice_spec {changed : Bool} (h : rows.Pairwise Apart) (hle : fromId ≤ toId)
    (hlimit : 1 ≤ limit)
    (hchanged : changed = false → ∀ row ∈ rows, row.userId = userId → row.streamId ≤ toId →
      row.streamId ≤ fromId)
    (hget : getMessagesForDevice changed userId deviceId fromId toId limit rows = (messages,pos)) :
    Increasing Row.streamId messages ∧
      (∀ row, row ∈ messages ↔ row ∈ rows ∧ inRange userId deviceId fromId pos row) ∧
      (fromId ≤ pos ∧ pos ≤ toId) ∧ (pos = toId ∨ messages.length = limit) := by
  cases changed with
  | false =>
    cases hget
    refine ⟨Pairwise.nil,fun row => ⟨nofun,?_⟩,⟨hle,le_rfl⟩,.inl rfl⟩
    rintro ⟨hrow,hrange⟩
    obtain ⟨hu,-,hfrom,hto⟩ := inRange_iff.mp hrange
    exact absurd (hchanged rfl row hrow hu hto) hfrom.not_ge
  | true =>
    cases hget
    refine ⟨(orderBy_inRange h).sublist (take_sublist _ _),?_⟩
    split
    · rename_i hfull
      -- a full page is not empty, and its last row is the position
      have hne : selectPage userId deviceId fromId toId limit rows ≠ [] := by
        intro hnil
        rw [hnil] at hfull
        exact absurd hfull.symm (Nat.one_le_iff_ne_zero.mp hlimit)
      have hlast := getLast?_eq_some_getLast hne
      have hmem := mem_of_mem_selectPage (getLast_mem hne)
      obtain ⟨-,-,hfrom,hto⟩ := inRange_iff.mp hmem.2
      rw [hlast]
      exact ⟨fun row => mem_selectPage_iff h hlast,⟨hfrom.le,hto⟩,.inr hfull⟩
    · rename_i hshort
      refine ⟨fun row => ⟨mem_of_mem_selectPage,fun hrow => ?_⟩,⟨hle,le_rfl⟩,.inl rfl⟩
      unfold selectPage at hshort ⊢
      rw [length_take] at hshort
      rw [take_of_length_le (by omega)]
      exact orderBy_perm.mem_iff.mpr (mem_filter.mpr hrow)

/-- A batch only deletes rows of the device up to the bound, and one that asks for another has
deleted as many as it may. -/
theorem deleteMessagesForDeviceBetween_spec {start next : Option ℕ}
    (hdel : deleteMessagesForDeviceBetween userId deviceId start toId limit rows = (next,n,rest)) :
    rest.Sublist rows ∧ (∀ row ∈ rows, row ∈ rest ∨ inRange userId deviceId 0 toId row) ∧
      (next = none ∨ rest.countP (inRange userId deviceId 0 toId) + limit ≤
        rows.countP (inRange userId deviceId 0 toId)) := by
  simp only [deleteMessagesForDeviceBetween] at hdel
  split at hdel
  · obtain ⟨rfl,-,rfl⟩ := by simpa using hdel
    exact ⟨.refl _,fun row hrow => .inl hrow,.inl rfl⟩
  · rename_i maxId hmax
    obtain ⟨rfl,-,rfl⟩ := by simpa using hdel
    obtain ⟨last,hlast,rfl⟩ := mem_map.mp (max?_mem hmax)
    have hto := (inRange_iff.mp (mem_of_mem_selectPage hlast).2).2.2.2
    have hwithin : ∀ row : Row α, inRange userId deviceId (start.getD 0) last.streamId row →
        inRange userId deviceId 0 toId row := by
      intro row hin
      obtain ⟨hu,hd,hfrom,hle⟩ := inRange_iff.mp hin
      exact inRange_iff.mpr ⟨hu,hd,by omega,hle.trans hto⟩
    refine ⟨filter_sublist,fun row hrow => ?_,?_⟩
    · cases hin : inRange userId deviceId (start.getD 0) last.streamId row with
      | false => exact .inl (mem_filter.mpr ⟨hrow,by rw [hin]; rfl⟩)
      | true => exact .inr (hwithin row hin)
    · split
      · exact .inl rfl
      · have hdeleted : rows.countP (inRange userId deviceId (start.getD 0) last.streamId) ≤
            (rows.filter (inRange userId deviceId (start.getD 0) last.streamId)).countP
              (inRange userId deviceId 0 toId) := by
          rw [countP_filter]
          exact countP_mono_left fun row _ hin => by rw [hwithin row hin,hin]; rfl
        rw [countP_eq_countP_filter_add rows (inRange userId deviceId 0 toId)
          (inRange userId deviceId (start.getD 0) last.streamId)]
        exact .inr (by omega)

end calls

section runs
variable {s s' : State α} {first : ℕ}

/-- The client has what came after its first token up to its token, and what comes after that
is still stored. -/
structure Delivers (userId deviceId : String) (first : ℕ) (s : State α) : Prop where
  apart : s.added.Pairwise Apart
  stored : s.rows.Sublist s.added
  range : first ≤ s.token ∧ s.token ≤ s.current
  inOrder : Increasing Row.streamId s.returned
  returned : ∀ row, row ∈ s.returned ↔ row ∈ s.added ∧ inRange userId deviceId first s.token row = true
  kept : ∀ row ∈ s.added, row.userId = userId → row.deviceId = deviceId → s.token < row.streamId → row ∈ s.rows

theorem Delivers.add {row : Row α} (h : Delivers userId deviceId first s)
    (hnew : s.current < row.streamId) (hapart : ∀ other ∈ s.added, Apart other row) :
    Delivers userId deviceId first { s with
      rows := s.rows ++ [row]
      added := s.added ++ [row] } := by
  refine ⟨?_,h.stored.append (.refl _),h.range,h.inOrder,fun other => ?_,?_⟩
  · refine pairwise_append.mpr ⟨h.apart,pairwise_singleton _ _,?_⟩
    simpa using hapart
  · -- the new row is beyond the token
    rw [h.returned other,mem_append,mem_singleton]
    refine and_congr_left fun hin => (or_iff_left ?_).symm
    rintro rfl
    have hle := (inRange_iff.mp hin).2.2.2
    have hrange := h.range.2
    omega
  · intro other hother hu hd hlt
    rcases mem_append.mp hother with hold | hsame
    · exact mem_append_left _ (h.kept other hold hu hd hlt)
    · exact mem_append_right _ hsame

theorem Delivers.delete {start next : Option ℕ} (h : Delivers userId deviceId first s)
    (hdel : deleteMessagesForDeviceBetween userId deviceId start s.token limit s.rows
      = (next,n,rest)) : Delivers userId deviceId first { s with rows := rest } := by
  obtain ⟨hsub,hkept,-⟩ := deleteMessagesForDeviceBetween_spec hdel
  refine ⟨h.apart,hsub.trans h.stored,h.range,h.inOrder,h.returned,?_⟩
  intro row hrow hu hd hlt
  refine (hkept row (h.kept row hrow hu hd hlt)).resolve_right fun hin => ?_
  exact absurd (inRange_iff.mp hin).2.2.2 hlt.not_ge

theorem Delivers.read {changed : Bool} (h : Delivers userId deviceId first s) (hlimit : 1 ≤ limit)
    (hchanged : NoFalseNegative userId s changed)
    (hget : getMessagesForDevice changed userId deviceId s.token s.current limit s.rows
      = (messages,pos)) : Delivers userId deviceId first { s with
      phase := .idle
      token := pos
      returned := s.returned ++ messages } := by
  obtain ⟨hinc,hmem,⟨hfrom,hto⟩,-⟩ := getMessagesForDevice_spec
    (h.apart.sublist h.stored) h.range.2 hlimit hchanged hget
  have hfirst := h.range.1
  refine ⟨h.apart,h.stored,⟨hfirst.trans hfrom,hto⟩,?_,fun row => ?_,?_⟩
  · refine pairwise_append.mpr ⟨h.inOrder,hinc,fun a ha b hb => ?_⟩
    have hle := (inRange_iff.mp ((h.returned a).mp ha).2).2.2.2
    have hlt := (inRange_iff.mp ((hmem b).mp hb).2).2.2.1
    exact hle.trans_lt hlt
  · rw [mem_append,h.returned row,hmem row]
    simp only [inRange_iff]
    constructor
    · rintro (⟨hrow,hu,hd,hlt,hle⟩ | ⟨hrow,hu,hd,hlt,hle⟩)
      · exact ⟨hrow,hu,hd,hlt,hle.trans hfrom⟩
      · exact ⟨h.stored.subset hrow,hu,hd,hfirst.trans_lt hlt,hle⟩
    · rintro ⟨hrow,hu,hd,hlt,hle⟩
      rcases le_or_gt row.streamId s.token with hbefore | hafter
      · exact .inl ⟨hrow,hu,hd,hlt,hbefore⟩
      · exact .inr ⟨h.kept row hrow hu hd hafter,hu,hd,hafter,hle⟩
  · intro row hrow hu hd hlt
    exact h.kept row hrow hu hd (hfrom.trans_lt hlt)

theorem step_delivers {a : Action α} (h : Delivers userId deviceId first s)
    (hstep : step userId deviceId s a = some s') : Delivers userId deviceId first s' := by
  cases a with
  | add row =>
    obtain ⟨⟨hnew,hapart⟩,hs⟩ := ite_none_right_eq_some.mp hstep
    cases hs
    exact h.add hnew hapart
  | advance current =>
    obtain ⟨hle,hs⟩ := ite_none_right_eq_some.mp hstep
    cases hs
    exact { h with range := ⟨h.range.1,h.range.2.trans hle⟩ }
  | startDelete changed =>
    simp only [step] at hstep
    split at hstep
    · cases hstep
      exact { h with }
    · cases hstep
  | deleteBatch =>
    simp only [step] at hstep
    split at hstep
    · split at hstep
      · rename_i hdel
        cases hstep
        exact { h.delete hdel with }
      · rename_i hdel
        cases hstep
        exact { h.delete hdel with }
    · cases hstep
  | read limit changed =>
    simp only [step] at hstep
    split at hstep
    · obtain ⟨⟨hlimit,hchanged⟩,hs⟩ := ite_none_right_eq_some.mp hstep
      cases hs
      exact h.read hlimit hchanged rfl
    · cases hstep

/-- A read comes up to the current token, or returns as many messages as it may. -/
def ReadsOn (userId deviceId : String) (s : State α) : Prop :=
  ∀ count limit changed, s.phase = .deleted count → 1 ≤ limit → NoFalseNegative userId s changed →
    ∃ s', step userId deviceId s (.read limit changed) = some s' ∧
      (s'.token = s.current ∨ s'.returned.length = s.returned.length + limit)

/-- What is left to delete gets less until the call returns. -/
def DeletesOn (userId deviceId : String) (s : State α) : Prop :=
  ∀ start count, s.phase = .deleting start count →
    ∃ s', step userId deviceId s .deleteBatch = some s' ∧ ((∃ n, s'.phase = .deleted n) ∨
      s'.rows.countP (inRange userId deviceId 0 s.token) + 1000 ≤
        s.rows.countP (inRange userId deviceId 0 s.token))

theorem Delivers.readsOn (h : Delivers userId deviceId first s) : ReadsOn userId deviceId s := by
  intro count limit changed hphase hlimit hchanged
  rcases hget : getMessagesForDevice changed userId deviceId s.token s.current limit s.rows with
    ⟨messages,pos⟩
  obtain ⟨-,-,-,hprogress⟩ := getMessagesForDevice_spec
    (h.apart.sublist h.stored) h.range.2 hlimit hchanged hget
  simp only [step,hphase,if_pos (And.intro hlimit hchanged),hget]
  refine ⟨_,rfl,hprogress.imp_right fun hfull => ?_⟩
  rw [length_append,hfull]

theorem deletesOn (s : State α) : DeletesOn userId deviceId s := by
  intro start count hphase
  rcases hdel : deleteMessagesForDeviceBetween userId deviceId start s.token 1000 s.rows with
    ⟨next,n,rest⟩
  simp only [step,hphase,hdel]
  cases next with
  | none => exact ⟨_,rfl,.inl ⟨_,rfl⟩⟩
  | some next =>
    refine ⟨_,rfl,.inr ?_⟩
    exact (deleteMessagesForDeviceBetween_spec hdel).2.2.resolve_left nofun

def start (rows : List (Row α)) (current token : ℕ) (lastDeleted : Option ℕ) : State α :=
  ⟨rows,current,lastDeleted,.idle,token,rows,[]⟩

variable {rows : List (Row α)} {current token : ℕ}

theorem delivers_start {lastDeleted : Option ℕ} (h : rows.Pairwise Apart) (hle : token ≤ current) :
    Delivers userId deviceId token (start rows current token lastDeleted) := by
  refine ⟨h,.refl _,⟨le_rfl,hle⟩,Pairwise.nil,fun row => ⟨nofun,?_⟩,fun row hrow _ _ _ => hrow⟩
  rintro ⟨-,hin⟩
  obtain ⟨-,-,hlt,hle⟩ := inRange_iff.mp hin
  exact absurd hle hlt.not_ge

/-- Whatever is stored while the client deletes and reads, it is given every message once, in
stream order, and only what is up to its token was deleted. -/
theorem messages_delivered_once {lastDeleted : Option ℕ} {actions : List (Action α)}
    (hrows : rows.Pairwise Apart) (htoken : token ≤ current)
    (hrun : run (step userId deviceId) (start rows current token lastDeleted) actions = some s) :
    Delivers userId deviceId token s ∧ ReadsOn userId deviceId s ∧ DeletesOn userId deviceId s := by
  have h := run_preserves step_delivers (delivers_start hrows htoken) hrun
  exact ⟨h,h.readsOn,deletesOn s⟩

def message (streamId : ℕ) : Row String := ⟨"@u:h","D",streamId,"hello"⟩

/-- The second message is stored once the first is deleted. -/
def twoReads : List (Action String) :=
  [.startDelete true,.deleteBatch,.read 1 true,.startDelete true,.deleteBatch,.add (message 4),
    .advance 4,.read 1 true]

theorem two_messages_delivered_once : ∃ s,
    run (step "@u:h" "D") (start [message 1] 1 0 none) twoReads = some s ∧
    s.returned = [message 1,message 4] ∧ Delivers "@u:h" "D" 0 s := by
  have hreturned : (run (step "@u:h" "D") (start [message 1] 1 0 none) twoReads).map
      State.returned = some [message 1,message 4] := by
    simp [twoReads,run,step,start,message,deleteMessagesForDeviceBetween,selectPage,inRange,
      orderBy,finishDelete,getMessagesForDevice,NoFalseNegative,Apart]
  obtain ⟨s,hrun,hs⟩ := map_eq_some_iff.mp hreturned
  exact ⟨s,hrun,hs,(messages_delivered_once (by decide) (by decide) hrun).1⟩

end runs

end TextrpBriij.Storage.DeviceInbox
