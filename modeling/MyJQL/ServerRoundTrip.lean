import MyJQL.DatabaseRefinement
import MyJQL.ServerSystem

/-!
# The driver in front of the database

The database behind the server is the store that was verified on its own: it cannot be told from a
map, so everything said of connections to such a store is true of connections to it.
-/

namespace MyJQL.ServerRoundTrip

open MyJQL.KeyValueStore
open MyJQL.DatabaseModel
open MyJQL.DatabaseRefinement
open MyJQL.ServerModel
open MyJQL.ServerProtocol
open MyJQL.ServerSystem

set_option autoImplicit false

private theorem key_short : ([107] : Bytes).length ≤ maxStrLen := by decide

private theorem value_short : ([1, 2, 3] : Bytes).length ≤ maxStrLen := by decide

/-- One client on a new database makes two calls and is then destroyed. -/
theorem system_in_step_two_calls : ∃ (database : Database) (system : System Unit Database),
    Relation.ReflTransGen (SystemStep databaseCall)
        (System.started database fun _ => setThenGet [107] [1, 2, 3]) system ∧
      (system.links ()).client.remaining = [] ∧
      ∃ history, Settled (setThenGet [107] [1, 2, 3] ++ [.close]) (logOf () system.log) (system.links ()) history := by
  obtain ⟨database, _, holds⟩ := database_opened empty_files_empty blankDatabase
  have made : ∀ client : Unit, Made (setThenGet [107] [1, 2, 3]) := fun _ =>
    set_then_get_made key_short value_short
  obtain ⟨_, _, starts⟩ := system_in_step (database_faithful 0) holds nothing_bounded made .refl
  obtain ⟨_, _, system, run, returned, all⟩ := starts ()
  obtain ⟨_, _, ends⟩ := system_in_step (database_faithful 0) holds nothing_bounded made run
  exact ⟨database, system, run, all, (ends ()).1 returned⟩

/-- Bytes that are not zero come back. -/
theorem system_round_trip_no_zero : ∃ (database : Database) (system : System Unit Database) (exchange : Exchange),
    Relation.ReflTransGen (SystemStep databaseCall)
        (System.started database fun _ => setThenGet [107] [1, 2, 3]) system ∧
      exchange.call = .get [107] ∧ exchange.outcome = .found [1, 2, 3] := by
  obtain ⟨database, _, holds⟩ := database_opened empty_files_empty blankDatabase
  obtain ⟨system, _, _, _, _, exchange, run, settled, looked, logged, which, _⟩ :=
    set_then_get (database_faithful 0) holds nothing_bounded key_short value_short
  have made : ∀ client : Unit, Made (setThenGet [107] [1, 2, 3]) := fun _ =>
    set_then_get_made key_short value_short
  have back := system_round_trip (database_faithful 0) holds nothing_bounded made run key_short settled looked logged
    which (by simp [Untouched])
  exact ⟨database, system, exchange, run, looked, back.mpr (by decide)⟩

/-- A value that is one zero byte does not. -/
theorem zero_byte_lost : ∃ (database : Database) (system : System Unit Database) (answer found : StoreAnswer)
    (earlier later : List Exchange) (exchange : Exchange),
    Relation.ReflTransGen (SystemStep databaseCall)
        (System.started database fun _ => setThenGet [107] [0]) system ∧
      Settled (setThenGet [107] [0] ++ [.close]) (logOf () system.log) (system.links ())
        (earlier ++ exchange :: later) ∧
      system.log = [((), .set [107] [0], answer), ((), .get [107] maxStrLen, found)] ∧
      exchange.call = .get [107] ∧ exchange.outcome = .found [] := by
  obtain ⟨database, _, holds⟩ := database_opened empty_files_empty blankDatabase
  obtain ⟨system, answer, found, earlier, later, exchange, run, settled, looked, logged, _, outcome⟩ :=
    set_then_get (database_faithful 0) holds nothing_bounded key_short
      (show ([0] : Bytes).length ≤ maxStrLen by decide)
  exact ⟨database, system, answer, found, earlier, later, exchange, run, settled, logged, looked, outcome⟩

end MyJQL.ServerRoundTrip
