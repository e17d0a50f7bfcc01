import HardwareKeys.Proofs.Store.Confinement
import HardwareKeys.Proofs.Store.Entries

/-!
# The log as an account of the calls

What a call reports follows from the call, its reply and the calls before it. A look-up reports that it resolves an alias, and the descriptor that is built when something stands under the alias; the descriptor shows the parameters inserted last. The log of a session is the account of its calls, one after the other, so the descriptors built are as many as the look-ups that found something.
-/

namespace HardwareKeys

namespace Store

open Catalog (Exchange)

/-- The parameters were inserted under the alias, and no later call has changed the entry. -/
def LastInserted (keyAlias : String) (p : KeyParams) (calls : List Call) : Prop :=
  ∃ earlier later, calls = earlier ++ .insert p :: later ∧ p.keyAlias = some keyAlias ∧
    ∀ call ∈ later, ¬call.Touches keyAlias

section LastInserted

variable {name keyAlias : String} {p : KeyParams} {calls : List Call}

end LastInserted

/-! ### The report of a call -/

/-- The calls that report nothing, however they end. -/
inductive Call.IsSilent : Call → Prop where
  | remove (keyAlias : String) : IsSilent (.remove keyAlias)
  | aliases : IsSilent .aliases
  | size : IsSilent .size
  | isEmpty : IsSilent .isEmpty
  | name : IsSilent .name

/-- What a store reports of a call and its reply after the earlier calls. -/
inductive Reports (store : String) (earlier : List Call) : Exchange → List Event → Prop where
  | registered {p : KeyParams} {keyAlias : String} (h : p.keyAlias = some keyAlias) :
      Reports store earlier (.insert p, .done) [.registering keyAlias store]
  | refused {p : KeyParams} {e : KeyError} (h : p.keyAlias = none) :
      Reports store earlier (.insert p, .failed e) []
  | described {keyAlias : String} {p : KeyParams} {d : Descriptor}
      (h : LastInserted keyAlias p earlier) :
      Reports store earlier (.keyInfo keyAlias, .descriptor d)
        [.resolving keyAlias store,
          .built keyAlias p.origin p.purposes p.insideSecureHardware]
  | notFound {keyAlias : String} {e : KeyError} (h : ∀ p, ¬LastInserted keyAlias p earlier) :
      Reports store earlier (.keyInfo keyAlias, .failed e) [.resolving keyAlias store]
  | contained {keyAlias : String} {p : KeyParams} (h : LastInserted keyAlias p earlier) :
      Reports store earlier (.contains keyAlias, .flag true)
        [.resolving keyAlias store,
          .built keyAlias p.origin p.purposes p.insideSecureHardware]
  | notContained {keyAlias : String} (h : ∀ p, ¬LastInserted keyAlias p earlier) :
      Reports store earlier (.contains keyAlias, .flag false) [.resolving keyAlias store]
  | silent {call : Call} {reply : Reply} (h : call.IsSilent) :
      Reports store earlier (call, reply) []

/-- The reports of the calls with their replies, one after the other, where each call comes after those before it. -/
inductive Accounts (store : String) : List Call → List Exchange → List Event → Prop where
  | nil (earlier : List Call) : Accounts store earlier [] []
  | cons {earlier : List Call} {exchange : Exchange} {events : List Event}
      {rest : List Exchange} {log : List Event} (h : Reports store earlier exchange events)
      (hrest : Accounts store (earlier ++ [exchange.1]) rest log) :
      Accounts store earlier (exchange :: rest) (events ++ log)

theorem Reports.level {store : String} {earlier : List Call} {exchange : Exchange}
    {events : List Event} (h : Reports store earlier exchange events) :
    ∀ event ∈ events, event.level = .debug := by
  cases h <;> simp [Event.level]

namespace Accounts

variable {store : String} {earlier : List Call} {exchanges : List Exchange} {log : List Event}

theorem level (h : Accounts store earlier exchanges log) : ∀ event ∈ log, event.level = .debug := by
  induction h with
  | nil => exact List.forall_mem_nil _
  | cons h _ ih => exact List.forall_mem_append.mpr ⟨h.level, ih⟩

end Accounts

end Store

end HardwareKeys
