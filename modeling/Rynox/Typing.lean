import Rynox.Lone

/-!
# The Types of the Handles

JNI takes its handles as they come: nothing in the C++ types keeps a method ID from being
used with an object of another class, or a field ID from being passed where a method ID
belongs. Here every handle has a Java type, which follows from the calls that answered it,
and a call is well typed when its handles have the types it needs. Every call a worker makes
is well typed, in every run of the library (`wellTyped_of_overlapRun`): the IDs are used on
the class they were looked up in, and with the signature they were looked up with.

Types say nothing about null. A null handle has the type of what failed to answer it.
-/

namespace Rynox

/-- The descriptor of a class type, as it stands in a signature. -/
def objectDescriptor (c : String) : String :=
  "L" ++ c ++ ";"

/-- The signature of a method: the classes of its arguments and of its result, `none` for
`void`. -/
structure Signature where
  args : List String
  result : Option String
  deriving DecidableEq, Repr

/-- A signature as JNI takes it. -/
def Signature.descriptor (s : Signature) : String :=
  "(" ++ String.join (s.args.map objectDescriptor) ++ ")" ++ s.result.elim "V" objectDescriptor

/-- What a handle stands for: a class, an object of a class, a static or an instance method
of a class, or a field of a class with the class of its values. -/
inductive JType
  | clazz (c : String)
  | object (c : String)
  | staticMethod (c : String) (sig : Signature)
  | method (c : String) (sig : Signature)
  | field (c d : String)
  deriving DecidableEq, Repr

/-- A call through `Client::env` with what it answered. -/
abbrev Answered := EnvCall × Option ℕ

/-- After the calls `l`, the handle has the type: a call that is typed has answered it. -/
inductive HasType (l : List Answered) : Option ℕ → JType → Prop
  | findClass {c : String} {v : Option ℕ} (h : (.findClass c, v) ∈ l) : HasType l v (.clazz c)
  | getObjectClass {o v : Option ℕ} {c : String} (ho : HasType l o (.object c))
      (h : (.getObjectClass o, v) ∈ l) : HasType l v (.clazz c)
  | getStaticMethodID {k v : Option ℕ} {c name : String} {sig : Signature}
      (hk : HasType l k (.clazz c)) (h : (.getStaticMethodID k name sig.descriptor, v) ∈ l) :
      HasType l v (.staticMethod c sig)
  | getMethodID {k v : Option ℕ} {c name : String} {sig : Signature}
      (hk : HasType l k (.clazz c)) (h : (.getMethodID k name sig.descriptor, v) ∈ l) :
      HasType l v (.method c sig)
  | getFieldID {k v : Option ℕ} {c d name : String} (hk : HasType l k (.clazz c))
      (h : (.getFieldID k name (objectDescriptor d), v) ∈ l) : HasType l v (.field c d)
  | callStaticObjectMethod {k m v : Option ℕ} {c d : String} (hk : HasType l k (.clazz c))
      (hm : HasType l m (.staticMethod c ⟨[], some d⟩))
      (h : (.callStaticObjectMethod k m, v) ∈ l) : HasType l v (.object d)
  | getObjectField {o f v : Option ℕ} {c d : String} (ho : HasType l o (.object c))
      (hf : HasType l f (.field c d)) (h : (.getObjectField o f, v) ∈ l) :
      HasType l v (.object d)
  | newStringUTF {s : String} {v : Option ℕ} (h : (.newStringUTF s, v) ∈ l) :
      HasType l v (.object "java/lang/String")

/-- After the calls `l`, the call is **well typed**. An argument of class
`java/lang/Object` may be any object. -/
def WellTyped (l : List Answered) : EnvCall → Prop
  | .findClass _ => True
  | .getStaticMethodID k _ sig | .getMethodID k _ sig =>
      ∃ c s, HasType l k (.clazz c) ∧ sig = Signature.descriptor s
  | .getFieldID k _ sig => ∃ c d, HasType l k (.clazz c) ∧ sig = objectDescriptor d
  | .callStaticObjectMethod k m =>
      ∃ c d, HasType l k (.clazz c) ∧ HasType l m (.staticMethod c ⟨[], some d⟩)
  | .callVoidMethod o m arg =>
      ∃ c d, HasType l o (.object c) ∧ HasType l m (.method c ⟨["java/lang/Object"], none⟩) ∧
        HasType l arg (.object d)
  | .getObjectClass o => ∃ c, HasType l o (.object c)
  | .getObjectField o f => ∃ c d, HasType l o (.object c) ∧ HasType l f (.field c d)
  | .newStringUTF _ => True
  | .deleteLocalRef r => ∃ c, HasType l r (.object c)

/-- What has a type keeps it. -/
theorem HasType.append {l l' : List Answered} {v : Option ℕ} {t : JType} (h : HasType l v t) :
    HasType (l ++ l') v t := by
  induction h with
  | findClass h => exact .findClass (List.mem_append_left _ h)
  | getObjectClass _ h ih => exact .getObjectClass ih (List.mem_append_left _ h)
  | getStaticMethodID _ h ih => exact .getStaticMethodID ih (List.mem_append_left _ h)
  | getMethodID _ h ih => exact .getMethodID ih (List.mem_append_left _ h)
  | getFieldID _ h ih => exact .getFieldID ih (List.mem_append_left _ h)
  | callStaticObjectMethod _ _ h ihk ihm =>
      exact .callStaticObjectMethod ihk ihm (List.mem_append_left _ h)
  | getObjectField _ _ h iho ihf => exact .getObjectField iho ihf (List.mem_append_left _ h)
  | newStringUTF h => exact .newStringUTF (List.mem_append_left _ h)

/-- The calls of a run of the lone worker, with their answers. -/
def answeredOf (tr : List (Worker × Answer)) : List Answered :=
  tr.filterMap fun x => x.1.call.map fun f => (f, x.2.value)

/-- The last step adds the call made in it, if any, with its answer. -/
theorem answeredOf_snoc (tr : List (Worker × Answer)) (w : Worker) (a : Answer) :
    answeredOf (tr ++ [(w, a)]) = answeredOf tr ++ (w.call.map fun f => (f, a.value)).toList := by
  cases h : w.call <;> simp [answeredOf, h]

/-! ### The types `runClient` relies on -/

/-- `org.apache.logging.log4j.Logger`. -/
def loggerName : String := "org/apache/logging/log4j/Logger"

/-- `net.minecraft.client.Minecraft`. -/
def minecraftName : String := "net/minecraft/client/Minecraft"

/-- The type of `LogManager.getLogger`. -/
def getLoggerType : JType :=
  .staticMethod "org/apache/logging/log4j/LogManager" ⟨[], some loggerName⟩

/-- The type of `Logger.info`. -/
def infoType : JType := .method loggerName ⟨["java/lang/Object"], none⟩

/-- The type of `Minecraft.getInstance`. -/
def getInstanceType : JType := .staticMethod minecraftName ⟨[], some minecraftName⟩

/-- The type of the field `player`. -/
def playerType : JType := .field minecraftName "net/minecraft/client/player/LocalPlayer"

/-- The descriptor in the source is that of the type of `getLogger`. -/
theorem descriptor_getLogger :
    Signature.descriptor ⟨[], some loggerName⟩ = "()Lorg/apache/logging/log4j/Logger;" := by
  decide

/-- The descriptor in the source is that of the type of `info`. -/
theorem descriptor_info :
    Signature.descriptor ⟨["java/lang/Object"], none⟩ = "(Ljava/lang/Object;)V" := by
  decide

/-- The descriptor in the source is that of the type of `getInstance`. -/
theorem descriptor_getInstance :
    Signature.descriptor ⟨[], some minecraftName⟩ = "()Lnet/minecraft/client/Minecraft;" := by
  decide

/-- The descriptor in the source is that of the type of `player`. -/
theorem descriptor_player :
    objectDescriptor "net/minecraft/client/player/LocalPlayer" =
      "Lnet/minecraft/client/player/LocalPlayer;" := by
  decide

namespace Worker

/-- What the log loop has: the logger and its method. -/
def LoggerTyped (l : List Answered) (w : Worker) : Prop :=
  HasType l w.rootLogger (.object loggerName) ∧ HasType l w.infoMethod infoType

/-- What the polling loop has: the class of the game, its method and its field. -/
def GameTyped (l : List Answered) (w : Worker) : Prop :=
  HasType l w.minecraftClass (.clazz minecraftName) ∧
    HasType l w.getInstanceMethod getInstanceType ∧ HasType l w.playerField playerType

/-- The types of the variables in use at each control point. -/
def TypedAt (l : List Answered) (w : Worker) : Prop :=
  match w.pc with
  | .getGetLoggerMethod =>
      HasType l w.logManagerClass (.clazz "org/apache/logging/log4j/LogManager")
  | .callGetLogger =>
      HasType l w.logManagerClass (.clazz "org/apache/logging/log4j/LogManager") ∧
        HasType l w.getLoggerMethod getLoggerType
  | .getLoggerClass => HasType l w.rootLogger (.object loggerName)
  | .getInfoMethod =>
      HasType l w.rootLogger (.object loggerName) ∧ HasType l w.loggerClass (.clazz loggerName)
  | .newMessage | .sleepLog => w.LoggerTyped l
  | .callInfo | .deleteMessage =>
      w.LoggerTyped l ∧ HasType l w.message (.object "java/lang/String")
  | .getGetInstanceMethod => HasType l w.minecraftClass (.clazz minecraftName)
  | .getPlayerField =>
      HasType l w.minecraftClass (.clazz minecraftName) ∧
        HasType l w.getInstanceMethod getInstanceType
  | .testRunning | .callGetInstance | .sleepPoll => w.GameTyped l
  | .getPlayer | .deleteMinecraft =>
      w.GameTyped l ∧ HasType l w.minecraftInstance (.object minecraftName)
  | .deletePlayer =>
      w.GameTyped l ∧ HasType l w.minecraftInstance (.object minecraftName) ∧
        HasType l w.playerInstance (.object "net/minecraft/client/player/LocalPlayer")
  | _ => True

variable {l l' : List Answered} {w : Worker} {a : Answer}

/-- Further answers leave the logger variables typed. -/
theorem LoggerTyped.append (h : w.LoggerTyped l) : w.LoggerTyped (l ++ l') :=
  ⟨h.1.append, h.2.append⟩

/-- Further answers leave the variables of the game typed. -/
theorem GameTyped.append (h : w.GameTyped l) : w.GameTyped (l ++ l') :=
  ⟨h.1.append, h.2.1.append, h.2.2.append⟩

/-- Where the variables have their types, the next call is well typed. -/
theorem wellTyped_of_typedAt (h : w.TypedAt l) : ∀ f ∈ w.call, WellTyped l f := by
  intro f hf
  cases hpc : w.pc <;> simp only [TypedAt, hpc] at h <;>
    simp only [call, op, hpc, Option.mem_def, Option.some.injEq, reduceCtorEq] at hf <;>
    subst hf
  case findLogManagerClass | newMessage | findMinecraftClass => trivial
  case getGetLoggerMethod => exact ⟨_, _, h, descriptor_getLogger.symm⟩
  case callGetLogger => exact ⟨_, _, h.1, h.2⟩
  case getLoggerClass => exact ⟨_, h⟩
  case getInfoMethod => exact ⟨_, _, h.2, descriptor_info.symm⟩
  case callInfo => exact ⟨_, _, h.1.1, h.1.2, h.2⟩
  case deleteMessage => exact ⟨_, h.2⟩
  case getGetInstanceMethod => exact ⟨_, _, h, descriptor_getInstance.symm⟩
  case getPlayerField => exact ⟨_, _, h.1, descriptor_player.symm⟩
  case callGetInstance => exact ⟨_, _, h.1, h.2.1⟩
  case getPlayer => exact ⟨_, _, h.2, h.1.2.2⟩
  case deletePlayer => exact ⟨_, h.2.2⟩
  case deleteMinecraft => exact ⟨_, h.2⟩

/-- The head of the log loop keeps what the log loop needs. -/
theorem typedAt_logLoop (h : w.LoggerTyped l) : w.logLoop.TypedAt l := by
  rw [logLoop]
  split
  · exact h
  · trivial

/-- Every step keeps the types, and gives what it fetches the type it is used with. -/
theorem typedAt_resume (h : w.TypedAt l) :
    (w.resume a).TypedAt (l ++ (w.call.map fun f => (f, a.value)).toList) := by
  have hnew : ∀ f ∈ w.call, (f, a.value) ∈ l ++ (w.call.map fun f => (f, a.value)).toList := by
    intro f hf
    rw [Option.mem_def.mp hf]
    simp
  generalize (w.call.map fun f => (f, a.value)).toList = new at hnew ⊢
  cases hpc : w.pc <;> simp only [TypedAt, hpc] at h <;>
    simp only [call, op, hpc, Option.mem_def, Option.some.injEq, forall_eq', reduceCtorEq,
      false_implies, implies_true] at hnew <;> simp only [resume, hpc]
  case findLogManagerClass =>
      split
      · trivial
      · exact HasType.findClass hnew
  case getGetLoggerMethod =>
      rw [← descriptor_getLogger] at hnew
      split
      · trivial
      · exact ⟨h.append, .getStaticMethodID h.append hnew⟩
  case callGetLogger =>
      split
      · trivial
      · exact HasType.callStaticObjectMethod h.1.append h.2.append hnew
  case getLoggerClass => exact ⟨h.append, .getObjectClass h.append hnew⟩
  case getInfoMethod =>
      rw [← descriptor_info] at hnew
      split
      · trivial
      · exact typedAt_logLoop ⟨h.1.append, .getMethodID h.2.append hnew⟩
  case newMessage => exact ⟨h.append, .newStringUTF hnew⟩
  case callInfo => exact ⟨h.1.append, h.2.append⟩
  case deleteMessage => exact h.1.append
  case sleepLog => exact typedAt_logLoop h.append
  case findMinecraftClass =>
      split
      · trivial
      · exact HasType.findClass hnew
  case getGetInstanceMethod =>
      rw [← descriptor_getInstance] at hnew
      exact ⟨h.append, .getStaticMethodID h.append hnew⟩
  case getPlayerField =>
      rw [← descriptor_player] at hnew
      exact ⟨h.1.append, h.2.append, .getFieldID h.1.append hnew⟩
  case testRunning =>
      split
      · exact h.append
      · trivial
  case callGetInstance =>
      split
      · exact h.append
      · exact ⟨h.append, .callStaticObjectMethod h.1.append h.2.1.append hnew⟩
  case getPlayer =>
      split
      · exact ⟨h.1.append, h.2.append⟩
      · exact ⟨h.1.append, h.2.append, .getObjectField h.2.append h.1.2.2.append hnew⟩
  case deletePlayer => exact ⟨h.1.append, h.2.1.append⟩
  case deleteMinecraft => exact h.1.append
  case sleepPoll => exact h.append
  case returned => simp only [TypedAt, hpc]
  all_goals
    try split
    all_goals trivial

/-- Every call of a run of the lone worker is well typed. -/
theorem wellTyped_of_run {tr : List (Worker × Answer)} (hrun : lts.Run start tr w) :
    w.TypedAt (answeredOf tr) ∧
      Lts.Historically (fun before x => ∀ f ∈ x.1.call, WellTyped (answeredOf before) f) tr := by
  refine hrun.induct (I := fun tr w => w.TypedAt (answeredOf tr) ∧
    Lts.Historically (fun before x => ∀ f ∈ x.1.call, WellTyped (answeredOf before) f) tr)
    ⟨trivial, Lts.historically_nil _⟩ ?_
  rintro tr w a w' - ⟨htyped, hcalls⟩ hstep
  obtain ⟨-, rfl⟩ := lts_step.mp hstep
  refine ⟨?_, Lts.historically_snoc.mpr ⟨hcalls, wellTyped_of_typedAt htyped⟩⟩
  rw [answeredOf_snoc]
  exact typedAt_resume htyped

end Worker

/-- **Every call is well typed.** In every run of the library, however the calls overlap and
the workers interleave, and whatever the JVM answers, a worker calls JNI with handles of the
types the call needs: with a method or field ID that was looked up in the class it is used
on, with the signature it is used with, and with objects of that class. -/
theorem wellTyped_of_overlapRun {tr : List (OverlapState × ActionOf OverlapAction)}
    {s : OverlapState} {i : ℕ} {w : Worker} (hrun : OverlapRun tr s) (hi : s.threads[i]? = some w) :
    Lts.Historically (fun before x => ∀ f ∈ x.1.call, WellTyped (answeredOf before) f)
      (lifeOf i tr) :=
  (Worker.wellTyped_of_run (run_lifeOf_overlap hrun hi)).2

/-- A run to which the theorem applies: a worker polls once and returns, after 59
operations. -/
theorem wellTyped_of_overlapRun_one_poll :
    ∃ tr s, OverlapRun tr s ∧ (lifeOf 0 tr).length = 59 ∧
      Lts.Historically (fun before x => ∀ f ∈ x.1.call, WellTyped (answeredOf before) f)
        (lifeOf 0 tr) := by
  obtain ⟨tr, s, hrun, ⟨w, hi, -⟩, hlength⟩ := Lts.exists_run_of_exec
    (L := overlap.lts) (s := overlap.lts.init)
    (P := fun tr s => (∃ w ∈ s.threads[0]?, w.pc = .returned) ∧ (lifeOf 0 tr).length = 59)
    polledOnce (by decide)
  exact ⟨tr, s, hrun, hlength, wellTyped_of_overlapRun hrun hi⟩

end Rynox
