import Tunnel.Lemmas.Switcher
import Tunnel.Lib.Count

/-!
# Where the switcher keeps its sockets

Every connection is at one site (`Site`): it waits in a list of a topic, a coroutine owns it, or it was never accepted
or is destroyed. The table and the coroutines are the ones that the sites name (`Filed`), and whatever moves sockets
keeps it so.
-/

namespace Tunnel

open Lib Function

namespace Switcher

/-- Where the socket of a connection is. -/
inductive Site where
  /-- not yet accepted -/
  | out
  /-- destroyed, or never to be accepted -/
  | gone
  /-- in `handle`, which waits for a request -/
  | handle
  /-- in `handle`, which writes a response -/
  | answer
  | pushing (t : Topic)
  | poping (t : Topic)
  /-- in `transfer_data`, as `push_socket` -/
  | sender (pop : Conn) (t : Topic) (ph : Phase)
  /-- in `transfer_data`, as `pop_socket` -/
  | receiver (push : Conn) (t : Topic) (ph : Phase)
  deriving DecidableEq

namespace Site

/-- The stage of the connection. -/
def stage : Site → Stage
  | .out => .fresh
  | .gone => .gone
  | .handle => .fresh
  | .answer => .answers
  | .pushing t => .wantsData t
  | .poping t => .wantsValue t
  | .sender _ t .readData => .wantsData t
  | .sender _ t (.writeData d) => .sending t d
  | .sender _ t .answerPush => .sent t
  | .sender _ _ .answerPop => .fresh
  | .receiver _ t .readData => .wantsValue t
  | .receiver _ t (.writeData _) => .wantsValue t
  | .receiver _ t .answerPush => .given t
  | .receiver _ t .answerPop => .given t

/-- The coroutine that is named by the connection. -/
def Owner : Site → Option Frame → Prop
  | .handle, f => f = some .handle
  | .answer, f => ∃ rpkg, f = some (.answer rpkg)
  | .sender pop t ph, f => f = some (.transfer pop t ph)
  | _, f => f = none

/-- The socket is in no transfer. -/
def single : Site → Bool
  | .sender _ _ _ => false
  | .receiver _ _ _ => false
  | _ => true

/-- A coroutine has the socket. -/
def busy : Site → Bool
  | .handle => true
  | .answer => true
  | .sender _ _ _ => true
  | .receiver _ _ _ => true
  | _ => false

variable {x : Site} {f : Option Frame}

/-- Who handles a request. -/
theorem Owner.handle (h : x.Owner (some .handle)) : x = .handle := by
  cases x with
  | handle => rfl
  | answer =>
    obtain ⟨_, h⟩ := h
    nomatch h
  | _ => nomatch h

/-- Who answers. -/
theorem Owner.answer {rpkg : ResponsePackage} (h : x.Owner (some (.answer rpkg))) : x = .answer := by
  cases x with
  | answer => rfl
  | _ => nomatch h

/-- Who transfers. -/
theorem Owner.transfer {pop : Conn} {t : Topic} {ph : Phase} (h : x.Owner (some (.transfer pop t ph))) :
    x = .sender pop t ph := by
  cases x with
  | sender pop' t' ph' =>
    cases h
    rfl
  | answer =>
    obtain ⟨_, h⟩ := h
    nomatch h
  | _ => nomatch h

end Site

/-! ## Partners -/

/-- Who sends in a transfer names the one who receives, and conversely. -/
def Paired (site : Conn → Site) : Prop := ∀ q p t ph, site q = .sender p t ph ↔ site p = .receiver q t ph

namespace Paired

variable {site site' : Conn → Site} {q p : Conn} {t : Topic} {ph : Phase}

/-- Nobody is their own partner. -/
theorem ne (h : Paired site) (hq : site q = .sender p t ph) : p ≠ q := by
  rintro rfl
  rw [(h p p t ph).1 hq] at hq
  nomatch hq

/-- Sockets move that are in no transfer before or after. -/
theorem congr (h : Paired site) (hs : ∀ c, site' c = site c ∨ ((site c).single = true ∧ (site' c).single = true)) :
    Paired site' := by
  have hsend : ∀ q p t ph, site' q = .sender p t ph ↔ site q = .sender p t ph := by
    intro q p t ph
    rcases hs q with heq | ⟨hold, hnew⟩
    · rw [heq]
    · constructor
      · intro hq
        rw [hq] at hnew
        nomatch hnew
      · intro hq
        rw [hq] at hold
        nomatch hold
  have hreceive : ∀ q p t ph, site' p = .receiver q t ph ↔ site p = .receiver q t ph := by
    intro q p t ph
    rcases hs p with heq | ⟨hold, hnew⟩
    · rw [heq]
    · constructor
      · intro hp
        rw [hp] at hnew
        nomatch hnew
      · intro hp
        rw [hp] at hold
        nomatch hold
  intro q p t ph
  rw [hsend, hreceive, h q p t ph]

/-- A socket moves that is in no transfer before or after. -/
theorem set (h : Paired site) {c : Conn} {x : Site} (hold : (site c).single = true) (hnew : x.single = true) :
    Paired (update site c x) := by
  refine h.congr (fun d => ?_)
  by_cases hd : d = c
  · subst hd
    exact .inr ⟨hold, by rwa [update_self]⟩
  · exact .inl (update_of_ne hd ..)

/-- Two sockets come together. -/
theorem join (h : Paired site) (hne : p ≠ q) (hq : (site q).single = true) (hp : (site p).single = true) (t : Topic)
    (ph : Phase) :
    Paired (update (update site p (.receiver q t ph)) q (.sender p t ph)) := by
  intro q' p' t' ph'
  constructor
  · intro hq'
    by_cases hqq : q' = q
    · subst hqq
      rw [update_self] at hq'
      cases hq'
      rw [update_of_ne hne, update_self]
    · rw [update_of_ne hqq] at hq'
      by_cases hqp : q' = p
      · subst hqp
        rw [update_self] at hq'
        nomatch hq'
      · rw [update_of_ne hqp] at hq'
        have hp' := (h q' p' t' ph').1 hq'
        rw [update_of_ne (by rintro rfl; rw [hp'] at hq; nomatch hq),
          update_of_ne (by rintro rfl; rw [hp'] at hp; nomatch hp)]
        exact hp'
  · intro hp'
    by_cases hpq : p' = q
    · subst hpq
      rw [update_self] at hp'
      nomatch hp'
    · rw [update_of_ne hpq] at hp'
      by_cases hpp : p' = p
      · subst hpp
        rw [update_self] at hp'
        cases hp'
        rw [update_self]
      · rw [update_of_ne hpp] at hp'
        have hq' := (h q' p' t' ph').2 hp'
        rw [update_of_ne (by rintro rfl; rw [hq'] at hq; nomatch hq),
          update_of_ne (by rintro rfl; rw [hq'] at hp; nomatch hp)]
        exact hq'

/-- Two sockets part. -/
theorem part (h : Paired site) (hq : site q = .sender p t ph) {x y : Site} (hx : x.single = true)
    (hy : y.single = true) :
    Paired (update (update site p y) q x) := by
  have hp := (h q p t ph).1 hq
  have hne := h.ne hq
  intro q' p' t' ph'
  constructor
  · intro hq'
    by_cases hqq : q' = q
    · subst hqq
      rw [update_self] at hq'
      rw [hq'] at hx
      nomatch hx
    · rw [update_of_ne hqq] at hq'
      by_cases hqp : q' = p
      · subst hqp
        rw [update_self] at hq'
        rw [hq'] at hy
        nomatch hy
      · rw [update_of_ne hqp] at hq'
        have hp' := (h q' p' t' ph').1 hq'
        rw [update_of_ne (by rintro rfl; rw [hp'] at hq; nomatch hq), update_of_ne (by
          rintro rfl
          rw [hp'] at hp
          exact hqq (Site.receiver.inj hp).1)]
        exact hp'
  · intro hp'
    by_cases hpq : p' = q
    · subst hpq
      rw [update_self] at hp'
      rw [hp'] at hx
      nomatch hx
    · rw [update_of_ne hpq] at hp'
      by_cases hpp : p' = p
      · subst hpp
        rw [update_self] at hp'
        rw [hp'] at hy
        nomatch hy
      · rw [update_of_ne hpp] at hp'
        have hq' := (h q' p' t' ph').2 hp'
        rw [update_of_ne (by
          rintro rfl
          rw [hq'] at hq
          exact hpp (Site.sender.inj hq).1), update_of_ne (by rintro rfl; rw [hq'] at hp; nomatch hp)]
        exact hq'

/-- A transfer goes on. -/
theorem next (h : Paired site) (hq : site q = .sender p t ph) (ph' : Phase) :
    Paired (update (update site p (.receiver q t ph')) q (.sender p t ph')) := by
  have hparted := h.part hq (x := .handle) (y := .handle) rfl rfl
  have hjoined := hparted.join (h.ne hq) (by rw [update_self]; rfl)
    (by rw [update_of_ne (h.ne hq), update_self]; rfl) t ph'
  rwa [update_comm (h.ne hq).symm, update_idem, update_idem] at hjoined

end Paired

/-! ## The table and the coroutines -/

/-- The connection is still to be accepted. -/
def State.Awaits (s : State) (c : Conn) : Prop := c ∉ s.opened ∧ s.accepting = true

/-- The table and the coroutines are the ones that the sites name. -/
structure Filed (s : State) (site : Conn → Site) : Prop where
  owner : ∀ c, (site c).Owner (s.frames c)
  pushing : Listed (fun t => (s.nodes t).pushingNodes) Site.pushing site
  poping : Listed (fun t => (s.nodes t).popingNodes) Site.poping site
  paired : Paired site
  awaits : ∀ c, s.Awaits c ↔ site c = .out
  lost : ∀ c, s.Lost c ↔ site c = .gone

theorem pushing_injective : Injective Site.pushing := fun _ _ h => Site.pushing.inj h

theorem poping_injective : Injective Site.poping := fun _ _ h => Site.poping.inj h

/-- The table after an assignment. -/
theorem State.nodes_assign (s : State) (t t' : Topic) (n : PendingNodes) :
    ((s.datas.assign t n).get t').getD {} = if t' = t then n else s.nodes t' := by
  rw [PMap.get_assign]
  split
  · rfl
  · rfl

/-- At first nobody is there. -/
theorem filed_init : Filed .init (fun _ => .out) where
  owner _ := rfl
  pushing _ _ := rfl
  poping _ _ := rfl
  paired _ _ _ _ := ⟨nofun, nofun⟩
  awaits c := by simp [State.init, State.Awaits]
  lost c := by simp [State.init, State.Lost]

/-- A coroutine gets a socket. -/
theorem owner_update {site : Conn → Site} {frames : Conn → Option Frame} (h : ∀ c, (site c).Owner (frames c)) {c : Conn}
    {x : Site} {f : Option Frame} (hx : x.Owner f) (d : Conn) : (update site c x d).Owner (update frames c f d) := by
  by_cases hd : d = c
  · subst hd
    rwa [update_self, update_self]
  · rw [update_of_ne hd, update_of_ne hd]
    exact h d

/-- A socket that is in no list moves to where it is in none. -/
theorem update_eq_iff {site : Conn → Site} {c : Conn} {x y : Site} (hc : site c ≠ y) (hx : x ≠ y) (d : Conn) :
    update site c x d = y ↔ site d = y := by
  by_cases hd : d = c
  · subst hd
    rw [update_self]
    exact ⟨fun h => absurd h hx, fun h => absurd h hc⟩
  · rw [update_of_ne hd]

namespace Filed

variable {s s' : State} {site site' : Conn → Site}

/-- Who was accepted and who is lost, when sockets move that are neither new nor lost. -/
theorem accounts (h : Filed s site) (s' : State)
    (hkept : s'.opened = s.opened ∧ s'.closed = s.closed ∧ s'.accepting = s.accepting)
    (hsite : ∀ d, site' d = site d ∨ ((site d ≠ .out ∧ site d ≠ .gone) ∧ site' d ≠ .out ∧ site' d ≠ .gone)) :
    (∀ c, s'.Awaits c ↔ site' c = .out) ∧ ∀ c, s'.Lost c ↔ site' c = .gone := by
  obtain ⟨hopened, hclosed, haccepting⟩ := hkept
  constructor
  · intro c
    rw [State.Awaits, hopened, haccepting]
    refine (h.awaits c).trans ?_
    rcases hsite c with heq | ⟨⟨hold, -⟩, hnew, -⟩
    · rw [heq]
    · exact iff_of_false hold hnew
  · intro c
    rw [State.Lost, hopened, hclosed, haccepting]
    refine (h.lost c).trans ?_
    rcases hsite c with heq | ⟨⟨-, hold⟩, -, hnew⟩
    · rw [heq]
    · exact iff_of_false hold hnew

/-- Nothing happens to the sockets. -/
theorem congr (h : Filed s site) (hdatas : s'.datas = s.datas) (hframes : s'.frames = s.frames)
    (hkept : s'.opened = s.opened ∧ s'.closed = s.closed ∧ s'.accepting = s.accepting) : Filed s' site := by
  have hnodes : ∀ t, s'.nodes t = s.nodes t := fun t => by rw [State.nodes, hdatas]; rfl
  obtain ⟨hawaits, hlost⟩ := h.accounts _ hkept (fun _ => .inl rfl)
  refine ⟨hframes ▸ h.owner, ?_, ?_, h.paired, hawaits, hlost⟩
  · exact h.pushing.congr (fun t => by rw [hnodes]) (fun _ _ => Iff.rfl)
  · exact h.poping.congr (fun t => by rw [hnodes]) (fun _ _ => Iff.rfl)

variable {c q p : Conn} {t : Topic} {ph : Phase} {x : Site} {f : Option Frame} {cs : List Conn}

section

variable (h : Filed s site)
include h

/-- A connection that was accepted and is not destroyed has a socket. -/
theorem live (hopened : c ∈ s.opened) (hclosed : c ∉ s.closed) :
    site c ≠ .out ∧ site c ≠ .gone := by
  constructor
  · intro hout
    exact ((h.awaits c).2 hout).1 hopened
  · intro hgone
    obtain hmem | ⟨hmem, -⟩ := (h.lost c).2 hgone
    · exact hclosed hmem
    · exact hmem hopened

/-- Where a site is known by its coroutine. -/
theorem of_handle (hc : s.frames c = some .handle) : site c = .handle := (hc ▸ h.owner c).handle

/-- An answer is of its own connection. -/
theorem of_answer {rpkg : ResponsePackage} (hc : s.frames c = some (.answer rpkg)) :
    site c = .answer :=
  (hc ▸ h.owner c).answer

/-- A transfer has two ends. -/
theorem of_transfer (hq : s.frames q = some (.transfer p t ph)) :
    site q = .sender p t ph ∧ site p = .receiver q t ph := by
  have hsite := (hq ▸ h.owner q : (site q).Owner (some (.transfer p t ph))).transfer
  exact ⟨hsite, (h.paired q p t ph).1 hsite⟩

/-- A coroutine that is no transfer gets a socket from another one, or from the acceptor. -/
theorem put (hc : site c = .out ∨ site c = .handle ∨ site c = .answer)
    (hx : x = .handle ∨ x = .answer) (hf : x.Owner f) (hdatas : s'.datas = s.datas)
    (hframes : s'.frames = update s.frames c f)
    (hawaits : ∀ d, s'.Awaits d ↔ update site c x d = .out)
    (hlost : ∀ d, s'.Lost d ↔ update site c x d = .gone) :
    Filed s' (update site c x) := by
  have hnodes : ∀ t, s'.nodes t = s.nodes t := fun t => by rw [State.nodes, hdatas]; rfl
  have hsingle : (site c).single = true := by rcases hc with hc | hc | hc <;> rw [hc] <;> rfl
  have hsingle' : x.single = true := by rcases hx with rfl | rfl <;> rfl
  refine ⟨hframes ▸ owner_update h.owner hf, ?_, ?_, h.paired.set hsingle hsingle', hawaits, hlost⟩
  · refine h.pushing.congr (fun t => by rw [hnodes]) (fun d t => update_eq_iff ?_ ?_ d)
    · rcases hc with hc | hc | hc <;> rw [hc] <;> nofun
    · rcases hx with rfl | rfl <;> nofun
  · refine h.poping.congr (fun t => by rw [hnodes]) (fun d t => update_eq_iff ?_ ?_ d)
    · rcases hc with hc | hc | hc <;> rw [hc] <;> nofun
    · rcases hx with rfl | rfl <;> nofun

/-- A socket moves between coroutines, none of them a transfer. -/
theorem set (hc : site c = .handle ∨ site c = .answer) (hx : x = .handle ∨ x = .answer)
    (hf : x.Owner f) (hdatas : s'.datas = s.datas) (hframes : s'.frames = update s.frames c f)
    (hkept : s'.opened = s.opened ∧ s'.closed = s.closed ∧ s'.accepting = s.accepting) :
    Filed s' (update site c x) := by
  have hsite : ∀ d, update site c x d = site d ∨
      ((site d ≠ .out ∧ site d ≠ .gone) ∧ update site c x d ≠ .out ∧ update site c x d ≠ .gone) := by
    intro d
    by_cases hd : d = c
    · subst hd
      rw [update_self]
      refine .inr ⟨?_, ?_⟩
      · rcases hc with hc | hc <;> rw [hc] <;> exact ⟨nofun, nofun⟩
      · rcases hx with rfl | rfl <;> exact ⟨nofun, nofun⟩
    · exact .inl (update_of_ne hd ..)
  obtain ⟨hawaits, hlost⟩ := h.accounts _ hkept hsite
  exact h.put (.inr hc) hx hf hdatas hframes hawaits hlost

/-- A connection is accepted. -/
theorem accept (hc : s.Awaits c) :
    Filed { s.setFrame c (some .handle) with opened := s.opened ++ [c] } (update site c .handle) := by
  have hout := (h.awaits c).1 hc
  have hother : ∀ d, d ≠ c → (d ∈ s.opened ++ [c] ↔ d ∈ s.opened) := by
    intro d hd
    simp [hd]
  refine h.put (.inl hout) (.inl rfl) rfl rfl rfl ?_ ?_
  · intro d
    by_cases hd : d = c
    · subst hd
      rw [update_self]
      exact ⟨fun hd => absurd (List.mem_append_right _ (List.mem_singleton_self _)) hd.1, nofun⟩
    · rw [update_of_ne hd]
      refine Iff.trans ?_ (h.awaits d)
      exact and_congr (not_congr (hother d hd)) Iff.rfl
  · intro d
    by_cases hd : d = c
    · subst hd
      rw [update_self]
      refine ⟨fun hlost => ?_, nofun⟩
      have hgone : site d = .gone := by
        refine (h.lost d).1 (hlost.imp_right (fun hlost => ?_))
        exact absurd (List.mem_append_right _ (List.mem_singleton_self _)) hlost.1
      rw [hout] at hgone
      nomatch hgone
    · rw [update_of_ne hd]
      refine Iff.trans ?_ (h.lost d)
      exact or_congr Iff.rfl (and_congr (not_congr (hother d hd)) Iff.rfl)

/-- The accept loop ends: who was not accepted never will be. -/
theorem acceptFails (haccepting : s.accepting = true) :
    Filed { s with accepting := false } (fun c => if site c = .out then .gone else site c) := by
  have hsite : ∀ c y, y ≠ .out → y ≠ .gone → ((if site c = .out then Site.gone else site c) = y ↔ site c = y) := by
    intro c y hout hgone
    split
    · rename_i hc
      rw [hc]
      exact iff_of_false (Ne.symm hgone) (Ne.symm hout)
    · rfl
  refine ⟨?_, ?_, ?_, ?_, ?_, ?_⟩
  · intro c
    show Site.Owner (if site c = .out then .gone else site c) (s.frames c)
    have howner := h.owner c
    split
    · rename_i hc
      rwa [hc] at howner
    · exact howner
  · exact h.pushing.congr (fun _ => rfl) (fun c t => hsite c _ nofun nofun)
  · exact h.poping.congr (fun _ => rfl) (fun c t => hsite c _ nofun nofun)
  · refine h.paired.congr (fun c => ?_)
    split
    · rename_i hc
      rw [hc]
      exact .inr ⟨rfl, rfl⟩
    · exact .inl rfl
  · intro c
    refine iff_of_false (fun hawaits => nomatch hawaits.2) ?_
    split
    · nofun
    · assumption
  · intro c
    have hout : s.Awaits c ↔ site c = .out := h.awaits c
    have hgone : s.Lost c ↔ site c = .gone := h.lost c
    simp only [State.Awaits, State.Lost, haccepting, and_true, Bool.true_eq_false, and_false, or_false] at hout hgone ⊢
    rw [hout, hgone]
    split
    · rename_i hc
      simp [hc]
    · rename_i hc
      simp [hc]

/-- Who is lost after connections were destroyed. -/
theorem lost_destroy : (s.destroy cs).Lost c ↔ site c = .gone ∨ c ∈ cs := by
  rw [← h.lost c]
  show c ∈ s.closed ++ cs ∨ (c ∉ s.opened ∧ s.accepting = false) ↔ _
  rw [List.mem_append, State.Lost, or_right_comm]

/-- Sockets that are in no list are destroyed. -/
theorem destroy (hpaired : Paired (fun c => if c ∈ cs then .gone else site c))
    (hcs : ∀ c ∈ cs, site c ≠ .out ∧ (∀ t, site c ≠ .pushing t) ∧ ∀ t, site c ≠ .poping t) :
    Filed (s.destroy cs) (fun c => if c ∈ cs then .gone else site c) := by
  refine ⟨?_, ?_, ?_, hpaired, ?_, ?_⟩
  · intro c
    show Site.Owner (if c ∈ cs then .gone else site c) (if c ∈ cs then none else s.frames c)
    split
    · rfl
    · exact h.owner c
  · refine h.pushing.congr (fun _ => rfl) (fun c t => ?_)
    split
    · rename_i hc
      exact ⟨nofun, fun heq => absurd heq ((hcs c hc).2.1 t)⟩
    · rfl
  · refine h.poping.congr (fun _ => rfl) (fun c t => ?_)
    split
    · rename_i hc
      exact ⟨nofun, fun heq => absurd heq ((hcs c hc).2.2 t)⟩
    · rfl
  · intro c
    refine (h.awaits c).trans ?_
    split
    · rename_i hc
      exact iff_of_false (hcs c hc).1 nofun
    · rfl
  · intro c
    refine h.lost_destroy.trans ?_
    split
    · rename_i hc
      simp [hc]
    · rename_i hc
      simp [hc]

/-- Two sockets move between coroutines. -/
theorem pair {y : Site} {g : Option Frame} (hq : (site q).busy = true) (hp : (site p).busy = true)
    (hx : x.busy = true) (hy : y.busy = true) (hpaired : Paired (update (update site p y) q x))
    (hf : x.Owner f) (hg : y.Owner g) (hdatas : s'.datas = s.datas)
    (hframes : s'.frames = update (update s.frames p g) q f)
    (hkept : s'.opened = s.opened ∧ s'.closed = s.closed ∧ s'.accepting = s.accepting) :
    Filed s' (update (update site p y) q x) := by
  obtain ⟨hopened, hclosed, haccepting⟩ := hkept
  have hnodes : ∀ t, s'.nodes t = s.nodes t := fun t => by rw [State.nodes, hdatas]; rfl
  have hiff : ∀ z : Site, z.busy = false → ∀ d, update (update site p y) q x d = z ↔ site d = z := by
    intro z hz d
    have hne : ∀ w : Site, w.busy = true → w ≠ z := by
      rintro w hw rfl
      rw [hz] at hw
      nomatch hw
    rw [update_eq_iff _ (hne x hx), update_eq_iff (hne _ hp) (hne y hy)]
    by_cases hqp : q = p
    · subst hqp
      rw [update_self]
      exact hne y hy
    · rw [update_of_ne hqp]
      exact hne _ hq
  refine ⟨hframes ▸ owner_update (owner_update h.owner hg) hf, ?_, ?_, hpaired, ?_, ?_⟩
  · exact h.pushing.congr (fun t => by rw [hnodes]) (fun d t => hiff _ rfl d)
  · exact h.poping.congr (fun t => by rw [hnodes]) (fun d t => hiff _ rfl d)
  · intro d
    rw [State.Awaits, hopened, haccepting]
    exact (h.awaits d).trans (hiff _ rfl d).symm
  · intro d
    rw [State.Lost, hopened, hclosed, haccepting]
    exact (h.lost d).trans (hiff _ rfl d).symm

/-- `transfer_data` goes on to its next phase. -/
theorem transferNext (hq : site q = .sender p t ph) (ph' : Phase) (hdatas : s'.datas = s.datas)
    (hframes : s'.frames = update s.frames q (some (.transfer p t ph')))
    (hkept : s'.opened = s.opened ∧ s'.closed = s.closed ∧ s'.accepting = s.accepting) :
    Filed s' (update (update site p (.receiver q t ph')) q (.sender p t ph')) := by
  have hp := (h.paired q p t ph).1 hq
  have hnone : s.frames p = none := by
    have howner := h.owner p
    rwa [hp] at howner
  refine h.pair (by rw [hq]; rfl) (by rw [hp]; rfl) rfl rfl (h.paired.next hq ph') rfl (g := none) rfl hdatas ?_ hkept
  rw [hframes, ← hnone, update_eq_self]

/-- `transfer_data` is at its end: both sockets are handled again. -/
theorem transferEnd (hq : site q = .sender p t ph) (hdatas : s'.datas = s.datas)
    (hframes : s'.frames = update (update s.frames q (some .handle)) p (some .handle))
    (hkept : s'.opened = s.opened ∧ s'.closed = s.closed ∧ s'.accepting = s.accepting) :
    Filed s' (update (update site p .handle) q .handle) := by
  have hp := (h.paired q p t ph).1 hq
  refine h.pair (by rw [hq]; rfl) (by rw [hp]; rfl) rfl rfl (h.paired.part hq rfl rfl) rfl rfl hdatas ?_ hkept
  rw [hframes, update_comm (h.paired.ne hq)]

end

/-! ### Requests -/

/-- One socket moves, and one that waits moves with it if there is one. -/
theorem moved {y : Site} (hc : site c ≠ .out ∧ site c ≠ .gone) (hp : site p ≠ .out ∧ site p ≠ .gone)
    (hx : x ≠ .out ∧ x ≠ .gone) (hy : y ≠ .out ∧ y ≠ .gone) (d : Conn) :
    update (update site p y) c x d = site d ∨
    ((site d ≠ .out ∧ site d ≠ .gone) ∧ update (update site p y) c x d ≠ .out ∧
      update (update site p y) c x d ≠ .gone) := by
  by_cases hdc : d = c
  · subst hdc
    rw [update_self]
    exact .inr ⟨hc, hx⟩
  · rw [update_of_ne hdc]
    by_cases hdp : d = p
    · subst hdp
      rw [update_self]
      exact .inr ⟨hp, hy⟩
    · rw [update_of_ne hdp]
      exact .inl rfl

theorem pushingNodes_assign (s : State) (t t' : Topic) (n : PendingNodes) :
    (((s.datas.assign t n).get t').getD {}).pushingNodes = if t' = t then n.pushingNodes
    else (s.nodes t').pushingNodes := by
  rw [State.nodes_assign, apply_ite PendingNodes.pushingNodes]

theorem popingNodes_assign (s : State) (t t' : Topic) (n : PendingNodes) :
    (((s.datas.assign t n).get t').getD {}).popingNodes = if t' = t then n.popingNodes
    else (s.nodes t').popingNodes := by
  rw [State.nodes_assign, apply_ite PendingNodes.popingNodes]

/-- A push waits. -/
theorem parkPush (h : Filed s site) (hc : site c = .handle) (t : Topic) :
    Filed { s.setFrame c none with
        datas := s.datas.assign t { s.nodes t with pushingNodes := c :: (s.nodes t).pushingNodes } }
      (update site c (.pushing t)) := by
  have hlive : site c ≠ .out ∧ site c ≠ .gone := by rw [hc]; exact ⟨nofun, nofun⟩
  obtain ⟨hawaits, hlost⟩ := h.accounts { s.setFrame c none with datas := _ } ⟨rfl, rfl, rfl⟩
    (moved hlive hlive (x := .pushing t) (y := site c) ⟨nofun, nofun⟩ hlive)
  rw [update_eq_self] at hawaits hlost
  refine ⟨owner_update h.owner rfl, ?_, ?_, h.paired.set (by rw [hc]; rfl) rfl, hawaits, hlost⟩
  · exact h.pushing.add pushing_injective (fun t' => pushingNodes_assign s t t' _) (fun t' =>
      by rw [hc]; nofun) (update_self ..)
      (fun d hd t' => by rw [update_of_ne hd])
  · refine h.poping.congr (fun t' => ?_) (fun d t' => update_eq_iff (by rw [hc]; nofun) (by nofun) d)
    refine (popingNodes_assign s t t' _).trans ?_
    split
    · rename_i ht
      rw [ht]
    · rfl

/-- A pop waits. -/
theorem parkPop (h : Filed s site) (hc : site c = .handle) (t : Topic) :
    Filed
    { s.setFrame c none with datas := s.datas.assign t { s.nodes t with popingNodes := c :: (s.nodes t).popingNodes } }
      (update site c (.poping t)) := by
  have hlive : site c ≠ .out ∧ site c ≠ .gone := by rw [hc]; exact ⟨nofun, nofun⟩
  obtain ⟨hawaits, hlost⟩ := h.accounts { s.setFrame c none with datas := _ } ⟨rfl, rfl, rfl⟩
    (moved hlive hlive (x := .poping t) (y := site c) ⟨nofun, nofun⟩ hlive)
  rw [update_eq_self] at hawaits hlost
  refine ⟨owner_update h.owner rfl, ?_, ?_, h.paired.set (by rw [hc]; rfl) rfl, hawaits, hlost⟩
  · refine h.pushing.congr (fun t' => ?_) (fun d t' => update_eq_iff (by rw [hc]; nofun) (by nofun) d)
    refine (pushingNodes_assign s t t' _).trans ?_
    split
    · rename_i ht
      rw [ht]
    · rfl
  · exact h.poping.add poping_injective (fun t' => popingNodes_assign s t t' _) (fun t' =>
      by rw [hc]; nofun) (update_self ..)
      (fun d hd t' => by rw [update_of_ne hd])

/-- A push meets a pop that waits. -/
theorem matchPush (h : Filed s site) (hc : site c = .handle) {rest : List Conn}
    (hp : (s.nodes t).popingNodes = p :: rest) :
    site p = .poping t ∧
    Filed { s.setFrame c (some (.transfer p t .readData)) with
        datas := s.datas.assign t { s.nodes t with popingNodes := rest } }
      (update (update site p (.receiver c t .readData)) c (.sender p t .readData)) := by
  have hsite : site p = .poping t := h.poping.mem.1 (hp ▸ List.mem_cons_self)
  have hne : p ≠ c := by
    rintro rfl
    rw [hc] at hsite
    nomatch hsite
  have hframe : s.frames p = none := by
    have howner := h.owner p
    rwa [hsite] at howner
  have hframes : update s.frames p none = s.frames := by rw [← hframe, update_eq_self]
  obtain ⟨hawaits, hlost⟩ := h.accounts { s.setFrame c (some (.transfer p t .readData)) with datas := _ } ⟨rfl, rfl,
    rfl⟩
    (moved (x := .sender p t .readData) (y := .receiver c t .readData) (by rw [hc]; exact ⟨nofun, nofun⟩)
      (by rw [hsite]; exact ⟨nofun, nofun⟩) ⟨nofun, nofun⟩ ⟨nofun, nofun⟩)
  refine ⟨hsite, ?_, ?_, ?_, ?_, hawaits, hlost⟩
  · have howner := owner_update h.owner (c := p) (x := .receiver c t .readData) (f := none) rfl
    rw [hframes] at howner
    exact owner_update howner rfl
  · refine h.pushing.congr (fun t' => ?_) (fun d t' => ?_)
    · refine (pushingNodes_assign s t t' _).trans ?_
      split
      · rename_i ht
        rw [ht]
      · rfl
    · rw [update_eq_iff (by rw [update_of_ne hne.symm, hc]; nofun) (by nofun),
        update_eq_iff (by rw [hsite]; nofun) (by nofun)]
  · refine h.poping.take poping_injective hp (fun t' => popingNodes_assign s t t' _) ?_ ?_
    · intro t'
      rw [update_of_ne hne, update_self]
      nofun
    · intro d hd t'
      rw [update_eq_iff (by rw [update_of_ne hne.symm, hc]; nofun) (by nofun), update_of_ne hd]
  · exact h.paired.join hne (by rw [hc]; rfl) (by rw [hsite]; rfl) t _

/-- A pop meets a push that waits. -/
theorem matchPop (h : Filed s site) (hc : site c = .handle) {rest : List Conn}
    (hq : (s.nodes t).pushingNodes = q :: rest) :
    site q = .pushing t ∧
    Filed { (s.setFrame c none).setFrame q (some (.transfer c t .readData)) with
        datas := s.datas.assign t { s.nodes t with pushingNodes := rest } }
      (update (update site c (.receiver q t .readData)) q (.sender c t .readData)) := by
  have hsite : site q = .pushing t := h.pushing.mem.1 (hq ▸ List.mem_cons_self)
  have hne : c ≠ q := by
    rintro rfl
    rw [hc] at hsite
    nomatch hsite
  obtain ⟨hawaits, hlost⟩ :=
    h.accounts { (s.setFrame c none).setFrame q (some (.transfer c t .readData)) with datas := _ }
    ⟨rfl, rfl, rfl⟩
    (moved (x := .sender c t .readData) (y := .receiver q t .readData) (by rw [hsite]; exact ⟨nofun, nofun⟩)
      (by rw [hc]; exact ⟨nofun, nofun⟩) ⟨nofun, nofun⟩ ⟨nofun, nofun⟩)
  refine ⟨hsite, ?_, ?_, ?_, ?_, hawaits, hlost⟩
  · exact owner_update (owner_update h.owner (c := c) (x := .receiver q t .readData) (f := none) rfl) rfl
  · refine h.pushing.take pushing_injective hq (fun t' => pushingNodes_assign s t t' _) ?_ ?_
    · intro t'
      rw [update_self]
      nofun
    · intro d hd t'
      rw [update_of_ne hd, update_eq_iff (by rw [hc]; nofun) (by nofun)]
  · refine h.poping.congr (fun t' => ?_) (fun d t' => ?_)
    · refine (popingNodes_assign s t t' _).trans ?_
      split
      · rename_i ht
        rw [ht]
      · rfl
    · rw [update_eq_iff (by rw [update_of_ne hne.symm, hsite]; nofun) (by nofun),
        update_eq_iff (by rw [hc]; nofun) (by nofun)]
  · exact h.paired.join hne (by rw [hsite]; rfl) (by rw [hc]; rfl) t _

/-- Who waits stands in the table. -/
theorem mem_waiting (h : Filed s site) {d : Conn} :
    d ∈ (s.nodes t).pushingNodes ++ (s.nodes t).popingNodes ↔ site d = .pushing t ∨ site d = .poping t := by
  rw [List.mem_append]
  exact or_congr h.pushing.mem h.poping.mem

/-- A closed topic has nobody waiting. -/
theorem closeTopic_nodes (c : Conn) (t t' : Topic) :
    (s.handleCloseTopicRequest c t).nodes t' = if t' = t then {} else s.nodes t' := by
  show ((s.datas.erase t).get t').getD {} = _
  rw [PMap.get_erase]
  split
  · rfl
  · rfl

/-- Who waits on another topic goes on waiting there. -/
theorem still_waits (hc : site c = .handle) (hwaits : ∀ d, d ∈ cs ↔ site d = .pushing t ∨ site d = .poping t)
    {mk : Topic → Site} (hmk : mk = .pushing ∨ mk = .poping) (d : Conn) (t' : Topic) :
    update (fun d => if d ∈ cs then .gone else site d) c .answer d = mk t' ↔ t' ≠ t ∧ site d = mk t' := by
  by_cases hd : d = c
  · subst hd
    rw [update_self, hc]
    rcases hmk with rfl | rfl <;> simp
  · rw [update_of_ne hd]
    split
    · rename_i hin
      rcases (hwaits d).1 hin with hsite | hsite <;> rw [hsite] <;> rcases hmk with rfl | rfl <;> simp [eq_comm]
    · rename_i hin
      rw [hwaits, not_or] at hin
      constructor
      · intro hsite
        refine ⟨?_, hsite⟩
        rintro rfl
        rcases hmk with rfl | rfl
        · exact hin.1 hsite
        · exact hin.2 hsite
      · exact fun hsite => hsite.2

/-- A topic is closed: who waits on it is destroyed. -/
theorem closeTopic (h : Filed s site) (hc : site c = .handle) (t : Topic) :
    Filed (s.handleCloseTopicRequest c t)
      (update (fun d => if d ∈ (s.nodes t).pushingNodes ++ (s.nodes t).popingNodes then .gone
        else site d) c .answer) := by
  have hwaits := fun d => h.mem_waiting (t := t) (d := d)
  generalize hcs : (s.nodes t).pushingNodes ++ (s.nodes t).popingNodes = cs at hwaits ⊢
  have hnot : c ∉ cs := by
    rw [hwaits, hc]
    simp
  have hstill := fun {mk : Topic → Site} (hmk : mk = .pushing ∨ mk = .poping) => still_waits hc hwaits hmk
  refine ⟨?_, ?_, ?_, ?_, ?_, ?_⟩
  · have howner : ∀ d, Site.Owner (if d ∈ cs then .gone else site d) (if d ∈ cs then none else s.frames d) := by
      intro d
      split
      · rfl
      · exact h.owner d
    unfold State.handleCloseTopicRequest State.destroy State.setFrame
    rw [hcs]
    exact owner_update howner ⟨_, rfl⟩
  · exact h.pushing.clear (fun t' => by rw [closeTopic_nodes, apply_ite PendingNodes.pushingNodes]) (hstill (.inl rfl))
  · exact h.poping.clear (fun t' => by rw [closeTopic_nodes, apply_ite PendingNodes.popingNodes]) (hstill (.inr rfl))
  · refine Paired.set (h.paired.congr (fun d => ?_)) (by rw [if_neg hnot, hc]; rfl) rfl
    split
    · rename_i hin
      rcases (hwaits d).1 hin with hsite | hsite <;> rw [hsite] <;> exact .inr ⟨rfl, rfl⟩
    · exact .inl rfl
  · intro d
    refine (h.awaits d).trans ?_
    by_cases hd : d = c
    · subst hd
      rw [update_self, hc]
      simp
    · rw [update_of_ne hd]
      split
      · rename_i hin
        rcases (hwaits d).1 hin with hsite | hsite <;> rw [hsite] <;> simp
      · rfl
  · intro d
    rw [← hcs] at hnot ⊢
    refine h.lost_destroy.trans ?_
    by_cases hd : d = c
    · subst hd
      rw [update_self, hc]
      simp [hnot]
    · rw [update_of_ne hd]
      split
      · rename_i hin
        simp [hin]
      · rename_i hin
        simp [hin]

/-- A request leads the socket of its connection to a stage, and every other socket stays at its stage or is destroyed.
-/
def Leads (site : Conn → Site) (c : Conn) (P : Stage → Prop) (site' : Conn → Site) : Prop :=
  P (site' c).stage ∧ ∀ d, d ≠ c → (site' d).stage = (site d).stage ∨ (site' d).stage = .gone

/-- One connection goes on. -/
theorem Leads.update {P : Stage → Prop} (hx : P x.stage) : Leads site c P (update site c x) := by
  refine ⟨by rwa [update_self], ?_⟩
  intro d hd
  exact .inl (by rw [update_of_ne hd])

section

variable (h : Filed s site)
include h

/-- A push request leads to its data. -/
theorem handlePush (hc : site c = .handle) (t : Topic) :
    ∃ site', Filed (s.handlePushRequest c t) site' ∧ Leads site c (· = .wantsData t) site' := by
  unfold State.handlePushRequest
  split
  · exact ⟨_, h.parkPush hc t, .update rfl⟩
  · rename_i p rest hp
    obtain ⟨hsite, hfiled⟩ := h.matchPush hc hp
    refine ⟨_, hfiled, by rw [update_self]; rfl, ?_⟩
    intro d hd
    refine .inl ?_
    rw [update_of_ne hd]
    by_cases hdp : d = p
    · subst hdp
      rw [update_self, hsite]
      rfl
    · rw [update_of_ne hdp]

/-- A pop request leads to its value. -/
theorem handlePop (hc : site c = .handle) (t : Topic) :
    ∃ site', Filed (s.handlePopRequest c t) site' ∧ Leads site c (· = .wantsValue t) site' := by
  unfold State.handlePopRequest
  split
  · exact ⟨_, h.parkPop hc t, .update rfl⟩
  · rename_i q rest hq
    obtain ⟨hsite, hfiled⟩ := h.matchPop hc hq
    have hne : c ≠ q := by
      rintro rfl
      rw [hc] at hsite
      nomatch hsite
    refine ⟨_, hfiled, by rw [update_of_ne hne, update_self]; rfl, ?_⟩
    intro d hd
    refine .inl ?_
    by_cases hdq : d = q
    · subst hdq
      rw [update_self, hsite]
      rfl
    · rw [update_of_ne hdq, update_of_ne hd]

/-- The socket of `handle` is destroyed. -/
theorem destroyOne (hc : site c = .handle ∨ site c = .answer) :
    Filed (s.destroy [c]) (update site c .gone) := by
  have hsites : (fun d => if d ∈ [c] then .gone else site d) = update site c .gone := by
    funext d
    simp only [List.mem_singleton, update_apply]
  rw [← hsites]
  refine h.destroy ?_ ?_
  · rw [hsites]
    exact h.paired.set (by rcases hc with hc | hc <;> rw [hc] <;> rfl) rfl
  · intro d hd
    rw [List.mem_singleton.1 hd]
    rcases hc with hc | hc <;> rw [hc] <;> exact ⟨nofun, fun _ => nofun, fun _ => nofun⟩

/-- The sockets of a transfer are destroyed. -/
theorem destroyBoth (hq : site q = .sender p t ph) :
    Filed (s.destroy [q, p]) (update (update site p .gone) q .gone) := by
  have hp := (h.paired q p t ph).1 hq
  have hsites : (fun d => if d ∈ [q, p] then .gone else site d) = update (update site p .gone) q .gone := by
    funext d
    simp only [List.mem_cons, List.not_mem_nil, or_false, update_apply]
    by_cases hd : d = q
    · simp [hd]
    · simp [hd]
  rw [← hsites]
  refine h.destroy ?_ ?_
  · rw [hsites]
    exact h.paired.part hq rfl rfl
  · intro d hd
    rcases List.mem_cons.1 hd with rfl | hd
    · rw [hq]
      exact ⟨nofun, fun _ => nofun, fun _ => nofun⟩
    · rw [List.mem_singleton.1 hd, hp]
      exact ⟨nofun, fun _ => nofun, fun _ => nofun⟩

/-- A request is handled. -/
theorem handle (hc : site c = .handle) (pkg : RequestPackage) :
    ∃ site', Filed (s.handle c pkg) site' ∧ Leads site c (fun st => st.after pkg) site' := by
  have h' : Filed { s with handled := s.handled ++ [pkg] } site := h.congr rfl rfl ⟨rfl, rfl, rfl⟩
  unfold State.handle Stage.after
  split
  · exact h'.handlePush hc pkg.topic
  split
  · exact h'.handlePop hc pkg.topic
  split
  · refine ⟨_, h'.closeTopic hc pkg.topic, by rw [update_self]; exact .inl rfl, ?_⟩
    intro d hd
    rw [update_of_ne hd]
    split
    · exact .inr rfl
    · exact .inl rfl
  split
  · exact ⟨_, h'.set (.inl hc) (.inr rfl) ⟨_, rfl⟩ rfl rfl ⟨rfl, rfl, rfl⟩, .update (.inl rfl)⟩
  · exact ⟨_, h'.destroyOne (.inl hc), .update (.inr rfl)⟩

/-- Who has a coroutine is in no list. -/
theorem not_pushing (hc : s.frames c ≠ none) (t : Topic) : c ∉ (s.nodes t).pushingNodes := by
  intro hmem
  have hsite : site c = .pushing t := h.pushing.mem.1 hmem
  have howner := h.owner c
  rw [hsite] at howner
  exact hc howner

/-- Who is parked has none. -/
theorem frame_of_pushing (hc : c ∈ (s.nodes t).pushingNodes) : s.frames c = none := by
  by_contra hne
  exact h.not_pushing hne t hc

/-- Who waits has no coroutine. -/
theorem frame_of_waiting (hc : c ∈ (s.nodes t).pushingNodes ++ (s.nodes t).popingNodes) :
    s.frames c = none := by
  have howner := h.owner c
  rcases h.mem_waiting.1 hc with hsite | hsite <;> rwa [hsite] at howner

end

end Filed

end Switcher

end Tunnel
