import TextrpBriij.Foundation.Runs

/-! # To-device messages for an application service

Each send takes a stream ID, persists its messages, leaves the generator's context and then
notifies with the token that is current. A notification fetches messages of its own users only,
and moves the one position of the service to its token. All devices exist and none is hidden.
-/
namespace TextrpBriij.Appservice.ToDevice
open List Runs

structure Message (α : Type) where
  streamId : ℕ
  userId : String
  deviceId : String
  messageJson : α
deriving DecidableEq

/-- A send before its messages are stored, before its ID is finished and before it notifies. -/
inductive Phase where
  | taken
  | persisted
  | finished
deriving DecidableEq

structure Send (α : Type) where
  messages : List (Message α)
  streamId : ℕ
  phase : Phase

structure Notification where
  newToken : ℕ
  users : List String

/-- `enqueued` has all messages that were ever given to the scheduler for the service. -/
structure State (α : Type) where
  lastId : ℕ
  sends : List (Send α)
  inbox : List (Message α)
  waiting : List Notification
  pos : Option ℕ
  enqueued : List (Message α)

variable {α : Type}

/-- All IDs up to the token are finished. -/
def getCurrentToken (s : State α) : ℕ :=
  match ((s.sends.filter (·.phase ≠ .finished)).map Send.streamId).min? with
  | none => s.lastId
  | some unfinished => unfinished - 1

def getTypeStreamId (s : State α) : ℕ := s.pos.getD 1

def getToDeviceMessages (isInterestedInUser : String → Bool) (fromKey newToken : ℕ)
    (users : List String) (inbox : List (Message α)) : List (Message α) :=
  inbox.filter fun m => m.userId ∈ users.filter isInterestedInUser ∧ fromKey < m.streamId ∧
    m.streamId ≤ newToken

inductive Action (α : Type) where
  | take (localMessages : List (String × String × α))
  | advance (i : ℕ)
  | handle (i : ℕ)

variable (isInterestedInUser : String → Bool)

def step (s : State α) : Action α → Option (State α)
  | .take localMessages => some { s with
      lastId := s.lastId + 1
      sends := s.sends ++ [⟨localMessages.map fun m => ⟨s.lastId + 1,m.1,m.2.1,m.2.2⟩, s.lastId + 1,.taken⟩] }
  | .advance i =>
    match s.sends[i]? with
    | some ⟨messages,streamId,.taken⟩ => some { s with
        inbox := s.inbox ++ messages
        sends := s.sends.set i ⟨messages,streamId,.persisted⟩ }
    | some ⟨messages,streamId,.persisted⟩ => some { s with
        sends := s.sends.set i ⟨messages,streamId,.finished⟩ }
    | some ⟨messages,_,.finished⟩ => some { s with
        sends := s.sends.eraseIdx i
        waiting := s.waiting ++ [⟨getCurrentToken s,messages.map Message.userId⟩] }
    | none => none
  | .handle i =>
    -- the linearizer lets one notification of the service at a time read and write the position
    s.waiting[i]?.map fun n => { s with
      waiting := s.waiting.eraseIdx i
      pos := some n.newToken
      enqueued := s.enqueued ++ getToDeviceMessages isInterestedInUser (getTypeStreamId s)
        n.newToken n.users s.inbox }

/-- A notification is handled when its token is not behind the position and all messages between
the two that the service is interested in are to its own users. -/
def fetchesAll (s : State α) : Action α → Prop
  | .handle i => ∀ n ∈ s.waiting[i]?, getTypeStreamId s ≤ n.newToken ∧
      ∀ m ∈ s.inbox, isInterestedInUser m.userId = true → getTypeStreamId s < m.streamId →
        m.streamId ≤ n.newToken → m.userId ∈ n.users
  | _ => True

instance decidableFetchesAll (s : State α) (a : Action α) : Decidable (fetchesAll isInterestedInUser s a) :=
  match a with
  | .handle _ => inferInstanceAs (Decidable (∀ n ∈ s.waiting[_]?, _))
  | .take _ => isTrue trivial
  | .advance _ => isTrue trivial

variable {isInterestedInUser} {s s' : State α}

/-- The ID is known, and no send below or at it is unfinished. -/
def Settled (s : State α) (n : ℕ) : Prop :=
  n ≤ s.lastId ∧ ∀ send ∈ s.sends, send.phase ≠ .finished → n < send.streamId

structure Inv (isInterestedInUser : String → Bool) (s : State α) : Prop where
  ids : ∀ send ∈ s.sends, 0 < send.streamId ∧ send.streamId ≤ s.lastId ∧
    ∀ m ∈ send.messages, m.streamId = send.streamId
  inbox : ∀ m ∈ s.inbox, m.streamId ≤ s.lastId
  pos : Settled s (getTypeStreamId s)
  waiting : ∀ n ∈ s.waiting, Settled s n.newToken
  enqueued : s.enqueued.Perm (s.inbox.filter fun m =>
    isInterestedInUser m.userId ∧ m.streamId ≤ getTypeStreamId s)
  last : s.sends = [] → getTypeStreamId s = s.lastId ∨ ∃ n ∈ s.waiting, n.newToken = s.lastId

theorem Inv.settled_getCurrentToken (h : Inv isInterestedInUser s) : Settled s (getCurrentToken s) := by
  unfold getCurrentToken
  split
  · rename_i hnone
    refine ⟨Nat.le_refl _,fun send hsend hphase => ?_⟩
    rw [min?_eq_none_iff,map_eq_nil_iff,filter_eq_nil_iff] at hnone
    exact absurd (by simpa using hphase) (hnone send hsend)
  · rename_i unfinished hmin
    obtain ⟨hmem,hleast⟩ := min?_eq_some_iff.mp hmin
    obtain ⟨least,hleastMem,rfl⟩ := mem_map.mp hmem
    have hid := h.ids least (mem_filter.mp hleastMem).1
    refine ⟨by omega,fun send hsend hphase => ?_⟩
    have hle := hleast _ (mem_map_of_mem (mem_filter.mpr ⟨hsend,by simpa using hphase⟩))
    omega

theorem Inv.setSend {i : ℕ} {messages stored : List (Message α)} {id : ℕ} {old new : Phase}
    (h : Inv isInterestedInUser s) (hi : s.sends[i]? = some ⟨messages,id,old⟩)
    (hold : old ≠ .finished) (hstored : stored ⊆ messages) : Inv isInterestedInUser { s with
      inbox := s.inbox ++ stored
      sends := s.sends.set i ⟨messages,id,new⟩ } := by
  have hmem := mem_of_getElem? hi
  obtain ⟨hpos,hle,hids⟩ := h.ids _ hmem
  have hsettled : ∀ n, Settled s n →
      ∀ send ∈ s.sends.set i ⟨messages,id,new⟩, send.phase ≠ .finished → n < send.streamId := by
    intro n hn
    exact forall_mem_set hn.2 fun _ => hn.2 ⟨messages,id,old⟩ hmem hold
  refine ⟨forall_mem_set h.ids ⟨hpos,hle,hids⟩,?_,⟨h.pos.1,hsettled _ h.pos⟩,
    fun n hn => ⟨(h.waiting n hn).1,hsettled _ (h.waiting n hn)⟩,?_,fun hnil => ?_⟩
  · refine forall_mem_append.mpr ⟨h.inbox,fun m hm => ?_⟩
    rw [hids m (hstored hm)]
    exact hle
  · -- an ID that is not finished is beyond the position
    have hbeyond := h.pos.2 _ hmem hold
    rw [filter_append,filter_eq_nil_iff (l := stored) |>.mpr,append_nil]
    · exact h.enqueued
    · intro m hm
      have hm := hids m (hstored hm)
      simp only [decide_eq_true_eq,not_and,Nat.not_le]
      exact fun _ => hm ▸ hbeyond
  · have hlength := length_set ▸ congrArg length hnil
    rw [length_eq_zero_iff.mp hlength] at hmem
    cases hmem

theorem Inv.notify {i : ℕ} {messages : List (Message α)} {id : ℕ} (h : Inv isInterestedInUser s)
    (hi : s.sends[i]? = some ⟨messages,id,.finished⟩) : Inv isInterestedInUser { s with
      sends := s.sends.eraseIdx i
      waiting := s.waiting ++ [⟨getCurrentToken s,messages.map Message.userId⟩] } := by
  have hsettled : ∀ n, Settled s n → Settled { s with sends := s.sends.eraseIdx i } n :=
    fun n hn => ⟨hn.1,fun send hsend => hn.2 send (mem_of_mem_eraseIdx hsend)⟩
  refine ⟨fun send hsend => h.ids send (mem_of_mem_eraseIdx hsend),h.inbox,
    hsettled _ h.pos,forall_mem_append.mpr ⟨fun n hn => hsettled _ (h.waiting n hn),?_⟩,h.enqueued,
    fun hnil => .inr ?_⟩
  · exact forall_mem_singleton.mpr (hsettled _ h.settled_getCurrentToken)
  · -- the last send was the only one, and finished
    refine ⟨_,mem_append_right _ (mem_singleton.mpr rfl),?_⟩
    obtain ⟨before,after,hsplit,-,herase⟩ := split_at hi
    rw [herase,append_eq_nil_iff] at hnil
    rw [hnil.1,hnil.2] at hsplit
    simp [getCurrentToken,hsplit]

theorem perm_getToDeviceMessages {fromKey newToken : ℕ} {users : List String}
    {inbox : List (Message α)} (hle : fromKey ≤ newToken)
    (hall : ∀ m ∈ inbox, isInterestedInUser m.userId = true → fromKey < m.streamId →
      m.streamId ≤ newToken → m.userId ∈ users) :
    (inbox.filter (fun m => isInterestedInUser m.userId ∧ m.streamId ≤ fromKey) ++
      getToDeviceMessages isInterestedInUser fromKey newToken users inbox).Perm
      (inbox.filter fun m => isInterestedInUser m.userId ∧ m.streamId ≤ newToken) := by
  refine .trans (.of_eq ?_) (filter_append_perm (fun m => m.streamId ≤ fromKey) _)
  rw [filter_filter,filter_filter]
  congr 1
  · refine filter_congr fun m _ => ?_
    simp only [← Bool.decide_and,decide_eq_decide]
    exact ⟨fun hm => ⟨hm.2,hm.1,Nat.le_trans hm.2 hle⟩,fun hm => ⟨hm.2.1,hm.1⟩⟩
  · refine filter_congr fun m hm => ?_
    rw [← decide_not,← Bool.decide_and,decide_eq_decide,mem_filter,Nat.not_le]
    constructor
    · rintro ⟨⟨-,hinterested⟩,hlt,hto⟩
      exact ⟨hlt,hinterested,hto⟩
    · rintro ⟨hlt,hinterested,hto⟩
      exact ⟨⟨hall m hm hinterested hlt hto,hinterested⟩,hlt,hto⟩

theorem inv_step {a : Action α} (h : Inv isInterestedInUser s)
    (hstep : guarded (fetchesAll isInterestedInUser) (step isInterestedInUser) s a = some s') :
    Inv isInterestedInUser s' := by
  obtain ⟨hfetches,hstep⟩ := guarded_eq_some.mp hstep
  cases a with
  | take localMessages =>
    cases hstep
    have hsettled : ∀ n, Settled s n → ∀ send : Send α, send.streamId = s.lastId + 1 →
        n ≤ s.lastId + 1 ∧ ∀ other ∈ s.sends ++ [send], other.phase ≠ .finished → n < other.streamId := by
      intro n hn send hsend
      refine ⟨Nat.le_succ_of_le hn.1,forall_mem_append.mpr ⟨hn.2,fun other hother _ => ?_⟩⟩
      rw [mem_singleton.mp hother,hsend]
      exact Nat.lt_succ_of_le hn.1
    refine ⟨forall_mem_append.mpr ⟨fun send hsend => ?_,fun send hsend => ?_⟩,fun m hm => ?_,
      hsettled _ h.pos _ rfl,fun n hn => hsettled _ (h.waiting n hn) _ rfl,h.enqueued,
      fun hnil => ?_⟩
    · obtain ⟨hpos,hle,hids⟩ := h.ids send hsend
      exact ⟨hpos,Nat.le_succ_of_le hle,hids⟩
    · obtain rfl := mem_singleton.mp hsend
      refine ⟨Nat.succ_pos _,Nat.le_refl _,fun m hm => ?_⟩
      obtain ⟨_,-,rfl⟩ := mem_map.mp hm
      rfl
    · exact Nat.le_succ_of_le (h.inbox m hm)
    · simp at hnil
  | advance i =>
    simp only [step] at hstep
    split at hstep
    · rename_i hi
      cases hstep
      exact h.setSend hi nofun (Subset.refl _)
    · rename_i hi
      cases hstep
      have hset := @Inv.setSend _ _ _ _ _ [] _ _ .finished h hi nofun (nil_subset _)
      rwa [append_nil] at hset
    · rename_i hi
      cases hstep
      exact h.notify hi
    · cases hstep
  | handle i =>
    obtain ⟨n,hi,rfl⟩ := Option.map_eq_some_iff.mp hstep
    obtain ⟨hle,hall⟩ := hfetches n hi
    have hn := h.waiting n (mem_of_getElem? hi)
    refine ⟨h.ids,h.inbox,hn,fun other hother => h.waiting other (mem_of_mem_eraseIdx hother),
      (h.enqueued.append_right _).trans (perm_getToDeviceMessages hle hall),fun hnil => ?_⟩
    obtain ⟨before,after,hsplit,-,herase⟩ := split_at hi
    rcases h.last hnil with hpos | ⟨other,hother,htoken⟩
    · exact .inl (Nat.le_antisymm hn.1 (hpos ▸ hle))
    · rw [hsplit,mem_append,mem_cons] at hother
      rcases hother with hbefore | rfl | hafter
      · exact .inr ⟨other,herase ▸ mem_append_left _ hbefore,htoken⟩
      · exact .inl htoken
      · exact .inr ⟨other,herase ▸ mem_append_right _ hafter,htoken⟩

def start (lastId : ℕ) (pos : Option ℕ) : State α := ⟨lastId,[],[],[],pos,[]⟩

/-- In every run whose notifications fetch all that they pass over, each message to a user that
the service is interested in has been enqueued once when all is handled. -/
theorem to_device_messages_enqueued_once {lastId : ℕ} {pos : Option ℕ} {actions : List (Action α)}
    (hpos : pos.getD 1 = lastId)
    (hrun : run (guarded (fetchesAll isInterestedInUser) (step isInterestedInUser))
      (start lastId pos) actions = some s) (hsends : s.sends = []) (hwaiting : s.waiting = []) :
    s.enqueued.Perm (s.inbox.filter fun m => isInterestedInUser m.userId) := by
  have hstart : Inv isInterestedInUser (start lastId pos : State α) :=
    ⟨nofun,nofun,⟨Nat.le_of_eq hpos,nofun⟩,nofun,.refl _,fun _ => .inl hpos⟩
  have h := run_preserves inv_step hstart hrun
  obtain hlast | ⟨n,hn,-⟩ := h.last hsends
  · refine h.enqueued.trans (.of_eq (filter_congr fun m hm => ?_))
    simp [hlast,h.inbox m hm]
  · rw [hwaiting] at hn
    cases hn

def oneSend : List (Action ℕ) :=
  [.take [("@u:h","D",7)],.advance 0,.advance 0,.advance 0,.handle 0]

theorem one_message_enqueued_once : ∃ s,
    run (guarded (fetchesAll fun _ => true) (step fun _ => true)) (start 1 none) oneSend =
      some s ∧ s.enqueued.Perm (s.inbox.filter fun _ => true) :=
  ⟨_,rfl,@to_device_messages_enqueued_once ℕ (fun _ => true) _ 1 none oneSend rfl rfl rfl rfl⟩

/-- The second send is finished first. The first one then notifies with the token of the second,
whose message is passed over. -/
theorem message_passed_over :
    (run (step fun _ => true) (start 1 none)
      [.take [("@a:h","D",7)],.take [("@b:h","D",8)],.advance 1,.advance 1,.advance 1,.handle 0,
        .advance 0,.advance 0,.advance 0,.handle 0]).map
      (fun s => (s.sends.length,s.waiting.length,s.inbox,s.enqueued)) =
      some (0,0,[⟨3,"@b:h","D",8⟩,⟨2,"@a:h","D",7⟩],[⟨2,"@a:h","D",7⟩]) := by
  decide +kernel

end TextrpBriij.Appservice.ToDevice
