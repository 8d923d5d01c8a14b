import FlashBasic.Proofs.Machine.Program

/-!
The states that a machine can get into. `Machine.Reachable` follows the calls that a host makes,
starting with blank flash, and `Machine.Invariant` gathers what has to be shown of a property for
it to hold in all these states.

The first such property is that the store is sound: `Machine.invariant_sound`.
-/

namespace FlashBasic

set_option autoImplicit false

namespace Machine

variable {σ : Type} {config : Config} {m : Machine σ}

/-! ## The store -/

/-- The store is sound. -/
structure Sound (config : Config) (m : Machine σ) : Prop where
  pageSize : m.store.pageSize = config.pageSize
  holds : ∃ c, m.store.Holds c

theorem sound_iff :
    Sound config m ↔ m.store.pageSize = config.pageSize ∧ ∃ c, m.store.Holds c :=
  ⟨fun h => ⟨h.pageSize, h.holds⟩, fun h => ⟨h.1, h.2⟩⟩

/-! ## Reachable states -/

variable [Host σ]

/-- The states between the calls of a host, the first on blank flash. Power may fail between calls,
and the host may change meanwhile. -/
inductive Reachable (config : Config) : Machine σ → Prop where
  | boot (host : σ) : Reachable config (boot config (.blank config.flashSize) host)
  | reboot {m : Machine σ} (h : Reachable config m) (host : σ) :
      Reachable config (.boot config m.store.flash host)
  | host {m : Machine σ} (h : Reachable config m) (host : σ) : Reachable config { m with host }
  | setup {m : Machine σ} (h : Reachable config m) : Reachable config m.setup
  | reset {m : Machine σ} (h : Reachable config m) : Reachable config m.reset
  | enter {m m' : Machine σ} (h : Reachable config m) {fuel : Nat} {typed : String}
      {status : Status} (henter : m.enter? fuel typed = some (status, m')) : Reachable config m'
  | event {m m' : Machine σ} (h : Reachable config m) {fuel : Nat} {line : UInt16}
      {canReturn : Bool} {status : Status}
      (hevent : m.event? fuel line canReturn = some (status, m')) : Reachable config m'
  | service {m m' : Machine σ} (h : Reachable config m) {service : UInt16}
      (hservice : m.registerService service = .ok m') : Reachable config m'
  | notifier {m m' : Machine σ} (h : Reachable config m) {name : Letter} {notifier : UInt16}
      (hnotifier : m.attachNotifier name notifier = .ok m') : Reachable config m'

/-- What makes `P` true in all reachable states. -/
structure Invariant (config : Config) (P : Machine σ → Prop) : Prop extends Kept P where
  boot : ∀ host, P (boot config (.blank config.flashSize) host)
  reboot : ∀ {m}, P m → ∀ host, P (.boot config m.store.flash host)

namespace Invariant

variable {P : Machine σ → Prop}

theorem reachable (h : Invariant config P) (hm : Reachable config m) : P m := by
  induction hm with
  | boot host => exact h.boot host
  | reboot _ host ih => exact h.reboot ih host
  | host _ host ih => exact h.move (d := .up) ih (.host _ host)
  | setup _ ih => exact h.setup ih
  | reset _ ih => exact h.move ih (.reset _)
  | enter _ henter ih => exact h.course ih (course_enter? .ready henter)
  | event _ hevent ih => exact h.course ih (course_event? .ready hevent)
  | service _ hservice ih => exact h.service ih hservice
  | notifier _ hnotifier ih => exact h.notifier ih hnotifier

end Invariant

/-! ## The store is sound -/

theorem holds_reboot {c : Contents} (hpage : m.store.pageSize = config.pageSize)
    (hc : m.store.Holds c) (host : σ) : (boot config m.store.flash host).store.Holds c := by
  obtain ⟨vol, hsound, hrep⟩ := hc
  have hreads : Reads m.store.flash config.pageSize vol := hpage ▸ hsound.reads
  exact Store.Holds.of_recover hreads hsound.clean hrep

namespace Sound

theorem boot (hsize : Page.ageLength ≤ config.pageSize) (host : σ) :
    Sound config (boot config (.blank config.flashSize) host) :=
  ⟨rfl, _, Store.Holds.mount_blank _ hsize⟩

theorem reboot (h : Sound config m) (host : σ) :
    Sound config (.boot config m.store.flash host) := by
  obtain ⟨hpage, c, hc⟩ := h
  exact ⟨rfl, c, holds_reboot hpage hc host⟩

end Sound

theorem invariant_sound (hsize : Page.ageLength ≤ config.pageSize) :
    Invariant config fun m : Machine σ => Sound config m where
  boot := Sound.boot hsize
  reboot h := h.reboot
  toKept := by
    simp only [sound_iff]
    refine kept_store (Q := fun s => s.pageSize = config.pageSize ∧ ∃ c, s.Holds c) ?_
    rintro s r ⟨hpage, c, hc⟩ hr
    exact ⟨(Store.pageSize_perform s r).trans hpage, _, hc.perform hr⟩

end Machine

end FlashBasic
