import SimtAsm.Command.Run

namespace SimtAsm

section Exec

variable {ε α β : Type} {host after : Host}

@[simp]
theorem exec_pure (value : α) : exec (pure value : ExceptT ε (StateM Host) α) host = (.ok value, host) := rfl

@[simp]
theorem exec_throw (error : ε) : exec (throw error : ExceptT ε (StateM Host) α) host = (.error error, host) := rfl

/-- A command goes on behind a step that gave a value, on the machine the step left, and ends where a step fails. -/
theorem exec_bind (command : ExceptT ε (StateM Host) α) (next : α → ExceptT ε (StateM Host) β) (host : Host) :
    exec (command >>= next) host =
      match exec command host with
      | (.ok value, after) => exec (next value) after
      | (.error error, after) => (.error error, after) := by
  have step : exec (command >>= next) host =
      (ExceptT.bindCont next (exec command host).1).run (exec command host).2 := rfl
  rw [step]
  rcases exec command host with ⟨error | value, after⟩ <;> rfl

theorem exec_bind_eq_ok_iff {command : ExceptT ε (StateM Host) α} {next : α → ExceptT ε (StateM Host) β} {result : β} :
    exec (command >>= next) host = (.ok result, after) ↔
      ∃ value middle, exec command host = (.ok value, middle) ∧ exec (next value) middle = (.ok result, after) := by
  rw [exec_bind]
  rcases exec command host with ⟨error | value, middle⟩
  · simp
  · constructor
    · exact fun rest => ⟨value, middle, rfl, rest⟩
    · rintro ⟨_, _, ⟨⟩, rest⟩
      exact rest

@[simp]
theorem exec_readFile (path : Text) :
    exec (readFile path : ExceptT ε (StateM Host) _) host = (.ok (host.files.read path), host) := rfl

@[simp]
theorem exec_print (text : Text) : exec (print text : ExceptT ε (StateM Host) Unit) host =
    (.ok (), { host with stdout := host.stdout ++ text }) := rfl

@[simp]
theorem exec_printError (text : Text) : exec (printError text : ExceptT ε (StateM Host) Unit) host =
    (.ok (), { host with stderr := host.stderr ++ text }) := rfl

theorem exec_writeFile (path : Text) (bytes : List UInt8) :
    exec (writeFile path bytes : ExceptT ε (StateM Host) _) host =
      match host.files.write path bytes with
      | .ok files => (.ok (.ok ()), { host with files })
      | .error error => (.ok (.error error), host) := by
  have step : exec (writeFile path bytes : ExceptT ε (StateM Host) _) host =
      let (written, after) :=
        match host.files.write path bytes with
        | .ok files => (.ok (), { host with files })
        | .error error => (.error error, host)
      (.ok written, after) := rfl
  rw [step]
  cases host.files.write path bytes <;> rfl

/-- Texts that are reported one after the other stand behind each other on standard error. -/
theorem exec_forM_printError (text : α → Text) (items : List α) (host : Host) :
    exec (forM items fun item => printError (text item) : ExceptT ε (StateM Host) Unit) host =
      (.ok (), { host with stderr := host.stderr ++ items.flatMap text }) := by
  induction items generalizing host with
  | nil => simp
  | cons item items ih => simp [exec_bind, ih]

theorem exec_save (context? : Option Text) (path : Text) (bytes : List UInt8) :
    exec (save context? path bytes) host =
      match host.files.write path bytes with
      | .ok files => (.ok (), { host with files })
      | .error error => (.error ⟨context?, error.message⟩, host) := by
  rw [save, exec_bind, exec_writeFile]
  cases host.files.write path bytes <;> rfl

theorem exec_save_eq_ok_iff {context? : Option Text} {path : Text} {bytes : List UInt8} :
    exec (save context? path bytes) host = (.ok (), after) ↔
      ∃ files, host.files.write path bytes = .ok files ∧ after = { host with files } := by
  rw [exec_save]
  cases host.files.write path bytes <;> simp [eq_comm]

end Exec

/-- The later machine has the files and the standard output of the earlier. -/
structure Host.Untouched (host after : Host) : Prop where
  files : after.files = host.files
  stdout : after.stdout = host.stdout

theorem Host.Untouched.refl (host : Host) : host.Untouched host := ⟨rfl, rfl⟩

theorem Host.Untouched.trans {host middle after : Host} (first : host.Untouched middle)
    (second : middle.Untouched after) : host.Untouched after :=
  ⟨second.files.trans first.files, second.stdout.trans first.stdout⟩

section Discipline

variable {ε α β : Type} {command : ExceptT ε (StateM Host) α} {next : α → ExceptT ε (StateM Host) β}

/-- However the command ends, it has touched nothing. -/
def Quiet (command : ExceptT ε (StateM Host) α) : Prop :=
  ∀ host : Host, host.Untouched (exec command host).2

/-- Where the command fails, it has touched nothing. -/
def Atomic (command : ExceptT ε (StateM Host) α) : Prop :=
  ∀ (host : Host) error after, exec command host = (.error error, after) → host.Untouched after

theorem Quiet.pure (value : α) : Quiet (Pure.pure value : ExceptT ε (StateM Host) α) := Host.Untouched.refl

theorem Quiet.throw (error : ε) : Quiet (throw error : ExceptT ε (StateM Host) α) := Host.Untouched.refl

theorem Quiet.readFile (path : Text) : Quiet (readFile path : ExceptT ε (StateM Host) _) := Host.Untouched.refl

theorem Quiet.printError (text : Text) : Quiet (printError text : ExceptT ε (StateM Host) Unit) := fun _ => ⟨rfl, rfl⟩

theorem Quiet.bind (first : Quiet command) (rest : ∀ value, Quiet (next value)) : Quiet (command >>= next) := by
  intro host
  have untouched := first host
  rw [exec_bind]
  generalize exec command host = reached at untouched
  obtain ⟨error | value, middle⟩ := reached
  · exact untouched
  · exact untouched.trans (rest value middle)

theorem Quiet.forM {action : α → ExceptT ε (StateM Host) PUnit} (items : List α) (each : ∀ item, Quiet (action item)) :
    Quiet (forM items action) := by
  induction items with
  | nil => exact .pure _
  | cons item items ih =>
    rw [List.forM_cons]
    exact .bind (each item) fun _ => ih

theorem Quiet.atomic (quiet : Quiet command) : Atomic command := by
  intro host error after failed
  have untouched := quiet host
  rw [failed] at untouched
  exact untouched

/-- Quiet steps before an atomic one make an atomic command. -/
theorem Atomic.bind (first : Quiet command) (last : ∀ value, Atomic (next value)) : Atomic (command >>= next) := by
  intro host error after failed
  have untouched := first host
  rw [exec_bind] at failed
  generalize exec command host = reached at untouched failed
  obtain ⟨error | value, middle⟩ := reached
  · cases failed
    exact untouched
  · exact untouched.trans (last value middle error after failed)

theorem Atomic.print (text : Text) : Atomic (print text : ExceptT ε (StateM Host) Unit) := by
  intro host error after failed
  cases failed

theorem Atomic.save (context? : Option Text) (path : Text) (bytes : List UInt8) :
    Atomic (save context? path bytes) := by
  intro host failure after failed
  rw [exec_save] at failed
  cases written : host.files.write path bytes with
  | ok files => simp [written] at failed
  | error error =>
    simp only [written, Prod.mk.injEq] at failed
    exact failed.2 ▸ .refl host

theorem Atomic.emit (context : Text → Option Text) (output? : Option Text) (text : Text) :
    Atomic (emit context output? text) := by
  cases output? with
  | none => exact .print text
  | some path => exact .save (context path) path text.toUtf8

end Discipline

end SimtAsm
