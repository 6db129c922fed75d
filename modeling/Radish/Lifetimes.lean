import Radish.Perpetual
import Radish.Robustness

/-!
# Servers one after the other

A data file outlives the server. As long as only servers write to it and the disk does not fail
under their commands, the next server can be started, serves whatever is sent and shuts down; and
without a ttl it shows what the last one showed.
-/

namespace Radish
set_option autoImplicit false

open RadishDB TcpServer

/-- What a server leaves under the data file's name: it is killed between two handlers, or it is
stopped or ended by a handler that threw, and its compaction completes or fails. -/
inductive TcpServer.Leaves (server : TcpServer) (options : ServerOptions) : LogWriter → Prop where
  | killed {disk : LogWriter} (behind : server.database.persistence = some disk) :
      server.Leaves options disk
  | stopped {disk : LogWriter} {fault : Option Fault}
      {order : Traversal (Σ _ : Key, RadishEvent Bytes)} {now : Timestamp}
      (behind : (server.finish fault order now options).2.persistence = some disk) :
      server.Leaves options disk

/-- What the disk holds under the data file's name when servers that `fit` have used it one after the
other, and what has been noted of them. -/
inductive Handed {A : Type} (first : A) (fits : ServerOptions → Environment → TcpServer → Prop)
    (note : A → TcpServer → A) : LogWriter → A → Prop where
  | absent {disk : LogWriter} (missing : disk.log = none) : Handed first fits note disk first
  | used {disk disk' : LogWriter} {a : A} {options : ServerOptions} {now : Timestamp}
      {database : RadishDB Bytes} {env : Environment} {happenings : List Happening}
      (before : Handed first fits note disk a) (persists : options.persistenceEnabled = true)
      (opens : options.openDatabase now disk = .ok database)
      (fit : fits options env ((start database).run env happenings))
      (leaves : ((start database).run env happenings).Leaves options disk') :
      Handed first fits note disk' (note a ((start database).run env happenings))

/-- What a server leaves behind has been through a compaction, or is what it was. -/
theorem TcpServer.finish_database (server : TcpServer) (fault : Option Fault)
    (order : Traversal (Σ _ : Key, RadishEvent Bytes)) (now : Timestamp) (options : ServerOptions) :
    (server.finish fault order now options).2 = server.database ∨
      (server.finish fault order now options).2 = (server.database.compact fault order now).2 := by
  unfold finish
  split
  · exact Or.inl rfl
  · split
    · right
      split <;> simp_all
    · exact Or.inl rfl

theorem ServerOptions.openDatabase_of_persists {options : ServerOptions} {now : Timestamp}
    {disk : LogWriter} (h : options.persistenceEnabled = true) :
    options.openDatabase now disk = RadishDB.new now (options.ttl.getD (-1)) .flush disk := by
  rw [openDatabase, h]
  rfl

/-- What holds of a file that does not exist, and of every file that a server leaves which found it
to hold, holds of every file that has been handed on. `Q` is what holds of the server's database,
and what a compaction keeps. -/
theorem Handed.holds {A : Type} {first : A} {fits : ServerOptions → Environment → TcpServer → Prop}
    {note : A → TcpServer → A} {P : LogWriter → A → Prop} {Q : RadishDB Bytes → A → Prop}
    (habsent : ∀ disk : LogWriter, disk.log = none → P disk first)
    (hserves : ∀ (disk : LogWriter) (a : A) (options : ServerOptions) (now : Timestamp)
      (database : RadishDB Bytes), P disk a →
      RadishDB.new now (options.ttl.getD (-1)) .flush disk = .ok database →
      ∀ env happenings, fits options env ((start database).run env happenings) →
        Q ((start database).run env happenings).database
          (note a ((start database).run env happenings)))
    (hcompacts : ∀ db a fault order now, Q db a → Q (db.compact fault order now).2 a)
    (hleaves : ∀ (db : RadishDB Bytes) a disk, Q db a → db.persistence = some disk → P disk a)
    {disk : LogWriter} {a : A} (h : Handed first fits note disk a) : P disk a := by
  induction h with
  | absent missing => exact habsent _ missing
  | @used disk disk' a options now database env happenings _ persists opens fit leaves ih =>
    rw [options.openDatabase_of_persists persists] at opens
    have hserved := hserves disk a options now database ih opens env happenings fit
    cases leaves with
    | killed behind => exact hleaves _ _ _ hserved behind
    | @stopped fault order later behind =>
      refine hleaves _ _ _ ?_ behind
      obtain hsame | hcompacted :=
        ((start database).run env happenings).finish_database fault order later options
      · rw [hsame]
        exact hserved
      · rw [hcompacted]
        exact hcompacts _ _ fault order later hserved

section Opening
variable {options : ServerOptions} {now : Timestamp} {disk : LogWriter} {database : RadishDB Bytes}

/-- A file from which every server starts. -/
def Startable (disk : LogWriter) : Prop :=
  ∀ now ttl, ∃ database : RadishDB Bytes, RadishDB.new now ttl .flush disk = .ok database ∧
    ∃ ms, database.Sized ms

theorem startable_of_absent (h : disk.log = none) : Startable disk := by
  intro now ttl
  refine ⟨_, new_of_absent h now ttl, [], ?_⟩
  exact (fresh_of_absent h (new_of_absent h now ttl)).2.sized_nil

theorem RadishDB.Sized.startable {ms : List (Mutation Bytes)} (h : database.Sized ms)
    (hdisk : database.persistence = some disk) : Startable disk := by
  intro now ttl
  obtain ⟨disk', hdisk', reopened, hnew, -, hlogged⟩ := new_of_logged h.logged now ttl
  obtain rfl := Option.some.inj (hdisk.symm.trans hdisk')
  exact ⟨reopened, hnew, ms, hlogged, h.small⟩

theorem RadishDB.Sound.startable (h : database.Sound) (hdisk : database.persistence = some disk) :
    Startable disk := by
  obtain hvolatile | ⟨ms, hms⟩ := h
  · rw [hdisk] at hvolatile
    cases hvolatile
  · exact hms.startable hdisk

theorem Startable.opens (h : Startable disk) (options : ServerOptions) (now : Timestamp) :
    ∃ database, options.openDatabase now disk = .ok database ∧ database.Sound := by
  cases hpersists : options.persistenceEnabled with
  | true =>
    obtain ⟨database, hnew, ms, hms⟩ := h now (options.ttl.getD (-1))
    exact ⟨database, (options.openDatabase_of_persists hpersists).trans hnew, Or.inr ⟨ms, hms⟩⟩
  | false =>
    refine ⟨⟨RadishStore.new (options.ttl.getD (-1)), none⟩, ?_, Or.inl rfl⟩
    rw [ServerOptions.openDatabase, hpersists]
    rfl

end Opening

/-- What the disk holds under the data file's name when every server that used it was started with
options that are `allowed`, and the disk did not fail under its commands. -/
def DataFile (allowed : ServerOptions → Prop) (disk : LogWriter) : Prop :=
  Handed () (fun options env _ => allowed options ∧ ∀ n, env.fault n = none) (fun a _ => a) disk ()

theorem DataFile.startable {allowed : ServerOptions → Prop} {disk : LogWriter}
    (h : DataFile allowed disk) : Startable disk := by
  refine Handed.holds (P := fun disk _ => Startable disk) (Q := fun db _ => db.Sound) ?_ ?_ ?_ ?_ h
  · exact fun disk missing => startable_of_absent missing
  · intro disk _ options now database hstartable opens env happenings hfits
    obtain ⟨database', hnew, ms, hms⟩ := hstartable now (options.ttl.getD (-1))
    obtain rfl := Except.ok.inj (opens.symm.trans hnew)
    exact (run_quiet hfits.2 lasts_sound (Or.inr ⟨ms, hms⟩) happenings).2
  · exact fun db _ fault order now hsound => hsound.compact fault order now
  · exact fun db _ disk hsound hdisk => hsound.startable hdisk

/-- A server can always be started on a file that only servers have written. While the disk does
not fail no client makes a handler throw, whatever is sent and in whatever order; and when the
server is stopped its compaction completes and it exits with 0. -/
theorem dataFile_serves {allowed : ServerOptions → Prop} {disk : LogWriter}
    (hfile : DataFile allowed disk) (options : ServerOptions) (now : Timestamp) :
    ∃ database, options.openDatabase now disk = .ok database ∧
      ∀ env : Environment, (∀ n, env.fault n = none) → ∀ happenings,
        ((start database).run env happenings).thrown = none ∧
          ∀ order later,
            (((start database).run env happenings).finish none order later options).1 = 0 := by
  obtain ⟨database, hopens, hsound⟩ := hfile.startable.opens options now
  refine ⟨database, hopens, ?_⟩
  intro env works happenings
  obtain ⟨hthrown, hserved⟩ := run_quiet works lasts_sound hsound happenings
  refine ⟨hthrown, ?_⟩
  intro order later
  obtain ⟨db', hcompact⟩ := hserved.compacts order later
  unfold finish
  rw [hthrown]
  dsimp only
  split
  · rw [hcompact]
  · rfl

theorem dataFile_serves_absent :
    ∃ database, ({} : ServerOptions).openDatabase 0 ⟨"radish.radish", none, none⟩ = .ok database ∧
      ∀ env : Environment, (∀ n, env.fault n = none) → ∀ happenings,
        ((start database).run env happenings).thrown = none ∧
          ∀ order later,
            (((start database).run env happenings).finish none order later {}).1 = 0 := by
  have hfile : DataFile (fun _ => True) ⟨"radish.radish", none, none⟩ := .absent rfl
  exact dataFile_serves hfile {} 0

/-! ## Without a ttl -/

theorem lasts_perpetual : Lasts fun db => db.Sound ∧ db.Perpetual := by
  intro db now c hdb hc
  obtain ⟨hsound, hperpetual⟩ := hdb
  obtain ⟨found, db', hcall, hsound'⟩ := hsound.call now hc
  refine ⟨found, db', hcall, hsound', ?_⟩
  have hafter := Perpetual.call now c hperpetual
  rw [hcall] at hafter
  exact hafter

/-- Whatever a server without a ttl opens is sound, and has only been opened without one. -/
theorem DataFile.perpetual {disk : LogWriter} (h : DataFile (fun options => options.ttl = none) disk)
    {now : Timestamp} {database : RadishDB Bytes}
    (hopens : RadishDB.new now (-1) .flush disk = .ok database) :
    database.Sound ∧ database.Perpetual := by
  refine Handed.holds (P := fun disk _ => ∀ now database,
    RadishDB.new now (-1) .flush disk = .ok database → database.Sound ∧ database.Perpetual)
    (Q := fun db _ => db.Sound ∧ db.Perpetual) ?_ ?_ ?_ ?_ h now database hopens
  · intro disk missing now database hnew
    exact ⟨Or.inr ⟨[], (fresh_of_absent missing hnew).2.sized_nil⟩, .first missing hnew⟩
  · intro disk _ options now database hbefore opens env happenings hfits
    rw [hfits.1] at opens
    exact (run_quiet hfits.2 lasts_perpetual (hbefore now database opens) happenings).2
  · exact fun db _ fault order now hdb => ⟨hdb.1.compact fault order now, .compact fault order now hdb.2⟩
  · intro db _ disk hdb hdisk now database hnew
    obtain ⟨reopened, hreopens, ms, hms⟩ := hdb.1.startable hdisk now (-1)
    obtain rfl := Except.ok.inj (hnew.symm.trans hreopens)
    exact ⟨Or.inr ⟨ms, hms⟩, .reopen hdb.2 hdisk hnew⟩

end Radish
