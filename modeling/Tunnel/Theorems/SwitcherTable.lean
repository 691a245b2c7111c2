import Tunnel.Lemmas.SwitcherSteps

/-!
# The table of the switcher

The entry of a topic is a function of the requests that were handled (`Tabled`): only the ones since the last close of
the topic count, and of these the pushes and the pops. A live connection is in one place (`State.At`).
-/

namespace Tunnel

open Lib

namespace Switcher

/-- The requests that were handled since the last close of a topic, the last one first. -/
def sinceClose (t : Topic) (handled : List RequestPackage) : List RequestPackage :=
  handled.reverse.takeWhile (fun pkg => ¬ (pkg.topic = t ∧ pkg.type = requestTypeCloseTopic))

/-- How many requests of a type were handled on a topic since its last close. -/
def handledSince (type : Int32) (t : Topic) (handled : List RequestPackage) : Nat :=
  (sinceClose t handled).countP (fun pkg => pkg.topic = t ∧ pkg.type = type)

theorem handledSince_concat (type : Int32) (t : Topic) (handled : List RequestPackage) (pkg : RequestPackage) :
    handledSince type t (handled ++ [pkg]) = if pkg.topic = t ∧ pkg.type = requestTypeCloseTopic then 0
      else handledSince type t handled + if pkg.topic = t ∧ pkg.type = type then 1 else 0 := by
  unfold handledSince sinceClose
  rw [List.reverse_append]
  by_cases hclose : pkg.topic = t ∧ pkg.type = requestTypeCloseTopic
  · simp [hclose]
  · simp only [List.reverse_singleton, List.singleton_append, List.takeWhile_cons, hclose, not_false_eq_true,
      decide_true, ↓reduceIte, List.countP_cons, decide_eq_true_eq]

/-- A request that is neither on the topic, nor a push, a pop or a close, does not count. -/
theorem handledSince_other {t : Topic} {pkg : RequestPackage} (type : Int32) (handled : List RequestPackage)
    (h : pkg.topic ≠ t ∨ (pkg.type ≠ requestTypeCloseTopic ∧ pkg.type ≠ type)) :
    handledSince type t (handled ++ [pkg]) = handledSince type t handled := by
  rw [handledSince_concat]
  rcases h with h | ⟨hclose, htype⟩
  · simp [h]
  · simp [hclose, htype]

/-- A request of the type counts. -/
theorem handledSince_same {type : Int32} {pkg : RequestPackage} (handled : List RequestPackage)
    (htype : pkg.type = type) (hclose : type ≠ requestTypeCloseTopic) :
    handledSince type pkg.topic (handled ++ [pkg]) = handledSince type pkg.topic handled + 1 := by
  rw [handledSince_concat, if_neg (fun h => hclose (htype.symm.trans h.2)), if_pos ⟨rfl, htype⟩]

/-- The entry of a topic, after so many pushes and pops on it. -/
def Entry (n : Option PendingNodes) (pushes pops : Nat) : Prop :=
  (n.isSome ↔ 0 < pushes + pops) ∧ (n.getD {}).pushingNodes.length = pushes - pops ∧
    (n.getD {}).popingNodes.length = pops - pushes

/-- The table is what the handled requests make it. -/
def Tabled (s : State) : Prop :=
  ∀ t, Entry (s.datas.get t) (handledSince requestTypePush t s.handled) (handledSince requestTypePop t s.handled)

namespace Entry

variable {n : Option PendingNodes} {pushes pops : Nat}

theorem none : Entry none 0 0 := ⟨by simp, rfl, rfl⟩

/-- A push waits. -/
theorem parkPush (h : Entry n pushes pops) (hnil : (n.getD {}).popingNodes = []) (c : Conn) :
    Entry (some { n.getD {} with pushingNodes := c :: (n.getD {}).pushingNodes }) (pushes + 1) pops := by
  obtain ⟨-, hpush, hpop⟩ := h
  rw [hnil] at hpop
  refine ⟨⟨fun _ => by omega, fun _ => rfl⟩, ?_, ?_⟩
  · show (n.getD {}).pushingNodes.length + 1 = _
    rw [List.length_nil] at hpop
    omega
  · show (n.getD {}).popingNodes.length = _
    rw [hnil]
    rw [List.length_nil] at hpop ⊢
    omega

/-- A push finds a pop. -/
theorem matchPush (h : Entry n pushes pops) {p : Conn} {rest : List Conn}
    (hcons : (n.getD {}).popingNodes = p :: rest) :
    Entry (some { n.getD {} with popingNodes := rest }) (pushes + 1) pops := by
  obtain ⟨-, hpush, hpop⟩ := h
  rw [hcons, List.length_cons] at hpop
  refine ⟨⟨fun _ => by omega, fun _ => rfl⟩, ?_, ?_⟩
  · show (n.getD {}).pushingNodes.length = _
    omega
  · show rest.length = _
    omega

/-- A pop waits. -/
theorem parkPop (h : Entry n pushes pops) (hnil : (n.getD {}).pushingNodes = []) (c : Conn) :
    Entry (some { n.getD {} with popingNodes := c :: (n.getD {}).popingNodes }) pushes (pops + 1) := by
  obtain ⟨-, hpush, hpop⟩ := h
  rw [hnil] at hpush
  refine ⟨⟨fun _ => by omega, fun _ => rfl⟩, ?_, ?_⟩
  · show (n.getD {}).pushingNodes.length = _
    rw [hnil]
    rw [List.length_nil] at hpush ⊢
    omega
  · show (n.getD {}).popingNodes.length + 1 = _
    rw [List.length_nil] at hpush
    omega

/-- A pop finds a push. -/
theorem matchPop (h : Entry n pushes pops) {q : Conn} {rest : List Conn}
    (hcons : (n.getD {}).pushingNodes = q :: rest) :
    Entry (some { n.getD {} with pushingNodes := rest }) pushes (pops + 1) := by
  obtain ⟨-, hpush, hpop⟩ := h
  rw [hcons, List.length_cons] at hpush
  refine ⟨⟨fun _ => by omega, fun _ => rfl⟩, ?_, ?_⟩
  · show rest.length = _
    omega
  · show (n.getD {}).popingNodes.length = _
    omega

end Entry

namespace Tabled

variable {s s' : State} {pkg : RequestPackage}

/-- One entry changes, or none, as the request asks for. -/
theorem request (h : Tabled s) (hhandled : s'.handled = s.handled ++ [pkg])
    (hother : ∀ t, t ≠ pkg.topic → s'.datas.get t = s.datas.get t)
    (hentry : Entry (s'.datas.get pkg.topic) (handledSince requestTypePush pkg.topic s'.handled)
      (handledSince requestTypePop pkg.topic s'.handled)) : Tabled s' := by
  intro t
  by_cases ht : t = pkg.topic
  · rw [ht]
    exact hentry
  · rw [hother t ht, hhandled, handledSince_other _ _ (.inl (Ne.symm ht)), handledSince_other _ _ (.inl (Ne.symm ht))]
    exact h t

/-- A push or a pop request assigns the entry of its topic. -/
theorem assigned (h : Tabled s) {n : PendingNodes} (hhandled : s'.handled = s.handled ++ [pkg])
    (hdatas : s'.datas = s.datas.assign pkg.topic n)
    (hentry : Entry (some n) (handledSince requestTypePush pkg.topic (s.handled ++ [pkg]))
      (handledSince requestTypePop pkg.topic (s.handled ++ [pkg]))) : Tabled s' := by
  refine h.request hhandled (fun t ht => ?_) ?_
  · rw [hdatas, PMap.get_assign, if_neg ht]
  · rw [hdatas, PMap.get_assign, if_pos rfl, hhandled]
    exact hentry

/-- Every request keeps the table. -/
theorem handle (h : Tabled s) (c : Conn) (pkg : RequestPackage) : Tabled (s.handle c pkg) := by
  have hentry := h pkg.topic
  unfold State.handle
  split
  · -- a push
    rename_i htype
    have hpush := handledSince_same s.handled htype (by decide)
    have hpop : handledSince requestTypePop pkg.topic (s.handled ++ [pkg]) = _ :=
      handledSince_other _ _ (.inr (by rw [htype]; decide))
    unfold State.handlePushRequest
    dsimp only
    split
    · rename_i hnil
      refine h.assigned rfl rfl ?_
      rw [hpush, hpop]
      exact hentry.parkPush hnil c
    · rename_i p rest hcons
      refine h.assigned rfl rfl ?_
      rw [hpush, hpop]
      exact hentry.matchPush hcons
  split
  · -- a pop
    rename_i htype
    have hpush : handledSince requestTypePush pkg.topic (s.handled ++ [pkg]) = _ :=
      handledSince_other _ _ (.inr (by rw [htype]; decide))
    have hpop := handledSince_same s.handled htype (by decide)
    unfold State.handlePopRequest
    dsimp only
    split
    · rename_i hnil
      refine h.assigned rfl rfl ?_
      rw [hpush, hpop]
      exact hentry.parkPop hnil c
    · rename_i q rest hcons
      refine h.assigned rfl rfl ?_
      rw [hpush, hpop]
      exact hentry.matchPop hcons
  split
  · -- a close
    rename_i htype
    refine h.request rfl ?_ ?_
    · intro t ht
      show (s.datas.erase pkg.topic).get t = _
      rw [PMap.get_erase, if_neg ht]
    · show Entry ((s.datas.erase pkg.topic).get pkg.topic) (handledSince _ _ (s.handled ++
        [pkg])) (handledSince _ _ (s.handled ++ [pkg]))
      rw [PMap.get_erase, if_pos rfl, handledSince_concat, handledSince_concat, if_pos ⟨rfl, htype⟩,
        if_pos ⟨rfl, htype⟩]
      exact .none
  -- any other request leaves the table alone
  · rename_i hpush hpop hclose
    have hsame : Tabled { s with handled := s.handled ++ [pkg] } := by
      refine h.request rfl (fun _ _ => rfl) ?_
      show Entry (s.datas.get pkg.topic) (handledSince _ _ (s.handled ++ [pkg])) (handledSince _ _ (s.handled ++ [pkg]))
      rw [handledSince_other _ _ (.inr ⟨hclose, hpush⟩), handledSince_other _ _ (.inr ⟨hclose, hpop⟩)]
      exact hentry
    split
    · exact hsame
    · exact hsame

/-- The table and the handled requests stay. -/
theorem congr (h : Tabled s) (hdatas : s'.datas = s.datas) (hhandled : s'.handled = s.handled) : Tabled s' := by
  intro t
  rw [hdatas, hhandled]
  exact h t

/-- Every step keeps the table. -/
theorem step {address : Conn → Bytes} (h : Tabled s) {e : Event} (he : s.step address e = some s') : Tabled s' := by
  cases e with
  | request c =>
    simp only [State.step] at he
    split at he
    · split at he
      · cases he
        have hset : ∀ x, Tabled (s.setSession c x) := fun _ => h.congr rfl rfl
        exact (hset _).handle c _
      · cases he
        exact h.congr rfl rfl
    · cases he
  | sendData c =>
    obtain ⟨x, -, rfl⟩ := Option.map_eq_some_iff.1 he
    exact h.congr rfl rfl
  | serializeThrows c =>
    obtain ⟨x, -, rfl⟩ := Option.map_eq_some_iff.1 he
    exact h.congr rfl rfl
  | transfer q =>
    simp only [State.step] at he
    split at he
    · rename_i p t ph hframe
      cases ph with
      | readData =>
        simp only [State.transferData] at he
        split at he
        · cases he
        · split at he
          · cases he
            exact h.congr rfl rfl
          · cases he
            exact h.congr rfl rfl
      | _ =>
        cases he
        exact h.congr rfl rfl
    · cases he
  | receive c =>
    simp only [State.step] at he
    split at he
    · cases he
    · cases he
      exact h.congr rfl rfl
    · cases he
      exact h.congr rfl rfl
  | _ =>
    simp only [State.step] at he
    split at he <;> cases he
    exact h.congr rfl rfl

end Tabled

variable {s : State} {site : Conn → Site}

/-- The table holds in every run. -/
theorem State.Reachable.tabled {address : Conn → Bytes} (h : s.Reachable address) : Tabled s := by
  induction h with
  | refl => exact fun t => .none
  | tail _ hlast ih =>
    obtain ⟨e, he⟩ := hlast
    exact ih.step he

/-! ## Places -/

/-- Where the server has a socket: in `handle`, in a list of a topic, or in a transfer, on one of its sides. -/
inductive Place where
  | handle
  | pushing (t : Topic)
  | poping (t : Topic)
  | pushSocket (pop : Conn)
  | popSocket (push : Conn)

/-- The socket of a connection is at the place. -/
def State.At (s : State) (c : Conn) : Place → Prop
  | .handle => s.frames c = some .handle ∨ ∃ rpkg, s.frames c = some (.answer rpkg)
  | .pushing t => c ∈ (s.nodes t).pushingNodes
  | .poping t => c ∈ (s.nodes t).popingNodes
  | .pushSocket pop => ∃ t ph, s.frames c = some (.transfer pop t ph)
  | .popSocket push => ∃ t ph, s.frames push = some (.transfer c t ph)

/-- The place of a site. -/
def Site.place : Site → Option Place
  | .out => none
  | .gone => none
  | .handle => some .handle
  | .answer => some .handle
  | .pushing t => some (.pushing t)
  | .poping t => some (.poping t)
  | .sender pop _ _ => some (.pushSocket pop)
  | .receiver push _ _ => some (.popSocket push)

/-- Where a connection is. -/
theorem Filed.at_iff (h : Filed s site) {c : Conn} {pl : Place} :
    s.At c pl ↔ (site c).place = some pl := by
  constructor
  · intro hat
    cases pl with
    | handle =>
      rcases hat with hat | ⟨rpkg, hat⟩
      · rw [h.of_handle hat]
        rfl
      · rw [h.of_answer hat]
        rfl
    | pushing t =>
      rw [h.pushing.mem.1 hat]
      rfl
    | poping t =>
      rw [h.poping.mem.1 hat]
      rfl
    | pushSocket p =>
      obtain ⟨t, ph, hat⟩ := hat
      rw [(h.of_transfer hat).1]
      rfl
    | popSocket q =>
      obtain ⟨t, ph, hat⟩ := hat
      rw [(h.of_transfer hat).2]
      rfl
  · intro hpl
    have howner := h.owner c
    cases hsite : site c with
    | out => rw [hsite] at hpl; nomatch hpl
    | gone => rw [hsite] at hpl; nomatch hpl
    | handle =>
      rw [hsite] at hpl howner
      cases hpl
      exact .inl howner
    | answer =>
      rw [hsite] at hpl howner
      cases hpl
      exact .inr howner
    | pushing t =>
      rw [hsite] at hpl
      cases hpl
      exact h.pushing.mem.2 hsite
    | poping t =>
      rw [hsite] at hpl
      cases hpl
      exact h.poping.mem.2 hsite
    | sender p t ph =>
      rw [hsite] at hpl howner
      cases hpl
      exact ⟨t, ph, howner⟩
    | receiver q t ph =>
      rw [hsite] at hpl
      cases hpl
      have hq := h.owner q
      rw [(h.paired q c t ph).2 hsite] at hq
      exact ⟨t, ph, hq⟩

/-- A connection that was accepted and is not destroyed is in one place; the lists hold it once. -/
theorem Filed.at_unique (h : Filed s site) {c : Conn} (hopened : c ∈ s.opened) (hclosed : c ∉ s.closed) :
    ∃! pl, s.At c pl := by
  obtain ⟨hout, hgone⟩ := h.live hopened hclosed
  obtain ⟨pl, hpl⟩ : ∃ pl, (site c).place = some pl := by
    cases hsite : site c with
    | out => exact absurd hsite hout
    | gone => exact absurd hsite hgone
    | _ => exact ⟨_, rfl⟩
  refine ⟨pl, h.at_iff.2 hpl, ?_⟩
  intro pl' hat
  exact Option.some.inj ((h.at_iff.1 hat).symm.trans hpl)

/-- Nobody waits twice. -/
theorem Filed.nodup (h : Filed s site) (t : Topic) :
    ((s.nodes t).pushingNodes ++ (s.nodes t).popingNodes).Nodup := by
  refine List.nodup_append.2 ⟨h.pushing.nodup t, h.poping.nodup t, ?_⟩
  rintro c hpush _ hpop rfl
  have hsite := h.pushing.mem.1 hpush
  rw [h.poping.mem.1 hpop] at hsite
  nomatch hsite

/-- In every state that is reached, for every topic: there is an entry if a push or a pop on the topic was handled since
it was last closed, and the lists are as long as the pushes exceed the pops, and conversely; a question for the topic is
answered by that; and every connection that was accepted and is not destroyed is in one place. -/
theorem switcher_table (address : Conn → Bytes) (s : State) (h : s.Reachable address) :
    (∀ t, ((s.datas.get t).isSome ↔ 0 < handledSince requestTypePush t s.handled +
      handledSince requestTypePop t s.handled) ∧
      (s.nodes t).pushingNodes.length = handledSince requestTypePush t s.handled -
      handledSince requestTypePop t s.handled ∧
      (s.nodes t).popingNodes.length = handledSince requestTypePop t s.handled -
      handledSince requestTypePush t s.handled) ∧
    (∀ c pkg rest, s.frames c = some .handle → (s.sessions c).inbox = .request pkg :: rest →
      pkg.type = requestTypeCheckTopicExist → ∃ s', s.step address (.request c) = some s' ∧ s'.frames c = some (.answer
        { topic := pkg.topic
          waitMs := 0
          peerAddr := []
          responseCode := if 0 < handledSince requestTypePush pkg.topic s.handled +
            handledSince requestTypePop pkg.topic s.handled
            then responseOk else responseTopicNotExist })) ∧
    (∀ c ∈ s.opened, c ∉ s.closed → ∃! pl, s.At c pl) ∧
      ∀ t, ((s.nodes t).pushingNodes ++ (s.nodes t).popingNodes).Nodup := by
  obtain ⟨site, hfiled⟩ := h.filed
  have htabled := h.tabled
  refine ⟨htabled, ?_, fun c hopened hclosed => hfiled.at_unique hopened hclosed, hfiled.nodup⟩
  intro c pkg rest hframe hin htype
  simp only [State.step, hframe, hin, ← (htabled pkg.topic).1]
  refine ⟨_, rfl, ?_⟩
  rw [State.handle, htype, if_neg (by decide), if_neg (by decide), if_neg (by decide), if_pos rfl]
  exact Function.update_self ..

/-- Two pushes and a pop on one topic, and a push on another. -/
def threePushes : List Event :=
  [.accept 0, .accept 1, .accept 2, .accept 3, .call 0 (.push [116] (some [1])) 0, .request 0,
    .call 1 (.push [116] none) 0, .request 1, .call 2 (.pop [116]) 0, .request 2, .call 3 (.push [117] none) 0,
    .request 3]

theorem switcher_table_pushes : ∃ s, State.init.runAll (fun _ => []) threePushes = some s ∧
    handledSince requestTypePush [116] s.handled = 2 ∧ handledSince requestTypePop [116] s.handled = 1 ∧
    (s.nodes [116]).pushingNodes.length = 1 ∧ (s.nodes [116]).popingNodes.length = 0 := by
  have hrun : (State.init.runAll (fun _ => []) threePushes).map State.handled = some
      [(Call.push [116] none).request 0, (Call.push [116] none).request 0, (Call.pop [116]).request 0,
        (Call.push [117] none).request 0] := rfl
  obtain ⟨s, hs, hhandled⟩ := Option.map_eq_some_iff.1 hrun
  have htable := ((switcher_table _ s (State.Reachable.run .refl hs)).1 [116]).2
  have hpush : handledSince requestTypePush [116] s.handled = 2 := by
    rw [hhandled]
    rfl
  have hpop : handledSince requestTypePop [116] s.handled = 1 := by
    rw [hhandled]
    rfl
  rw [hpush, hpop] at htable
  exact ⟨s, hs, hpush, hpop, htable⟩

end Switcher

end Tunnel
