import Mathlib.Data.Nat.Notation

/-!
# The Part of JNI the Client Uses

Handles are pointers of the JVM: a null pointer is `none`, and any other is known by a
number. Of the functions of a `JNIEnv` this module has the ten that `runClient` calls,
each with the arguments it passes; what the JVM answers is never fixed here.

Two facts of the JNI specification about these calls are recorded as functions on them:
which of a call's arguments must not be null, and which calls may be made while a Java
exception is pending on the thread.
-/

namespace Rynox

/-- `jint`, as far as the client looks at one: a return code. -/
abbrev JInt := Int

/-- `JNI_OK`. -/
def jniOk : JInt := 0

/-- A local reference (`jobject`, `jclass`, `jstring`); `none` is null. -/
abbrev JObject := Option ℕ

/-- A `jmethodID`; `none` is null. -/
abbrev JMethodID := Option ℕ

/-- A `jfieldID`; `none` is null. -/
abbrev JFieldID := Option ℕ

/-- A `JNIEnv` pointer; `none` is null. -/
abbrev EnvPtr := Option ℕ

/-- The calls `runClient` makes through `Client::env`. -/
inductive EnvCall
  | findClass (name : String)
  | getStaticMethodID (clazz : JObject) (name sig : String)
  | getMethodID (clazz : JObject) (name sig : String)
  | getFieldID (clazz : JObject) (name sig : String)
  | callStaticObjectMethod (clazz : JObject) (method : JMethodID)
  | callVoidMethod (obj : JObject) (method : JMethodID) (arg : JObject)
  | getObjectClass (obj : JObject)
  | getObjectField (obj : JObject) (field : JFieldID)
  | newStringUTF (bytes : String)
  | deleteLocalRef (ref : JObject)
  deriving DecidableEq, Repr

namespace EnvCall

/-- The arguments of a call that must not be null: its class, its receiver object, its
method ID or field ID. An argument passed on to Java and the reference given to
`DeleteLocalRef` may be null. -/
def handles : EnvCall → List (Option ℕ)
  | findClass _ => []
  | getStaticMethodID clazz _ _ => [clazz]
  | getMethodID clazz _ _ => [clazz]
  | getFieldID clazz _ _ => [clazz]
  | callStaticObjectMethod clazz method => [clazz, method]
  | callVoidMethod obj method _ => [obj, method]
  | getObjectClass obj => [obj]
  | getObjectField obj field => [obj, field]
  | newStringUTF _ => []
  | deleteLocalRef _ => []

/-- No handle that must not be null is null. -/
def NullSafe (f : EnvCall) : Prop :=
  none ∉ f.handles

instance (f : EnvCall) : Decidable f.NullSafe :=
  inferInstanceAs (Decidable (none ∉ f.handles))

/-- A call is safe exactly when no handle it is given is null. -/
theorem nullSafe_iff {f : EnvCall} : f.NullSafe ↔ ∀ h ∈ f.handles, h ≠ none := by
  constructor
  · rintro hsafe h hmem rfl
    exact hsafe hmem
  · intro hall hmem
    exact hall none hmem rfl

/-- Whether the call may be made while an exception is pending. Of the calls the client
makes only `DeleteLocalRef` may. -/
def allowedPending : EnvCall → Bool
  | deleteLocalRef _ => true
  | _ => false

/-- The class, method and field lookups, and `GetObjectClass`. -/
def isLookup : EnvCall → Bool
  | findClass _ | getStaticMethodID _ _ _ | getMethodID _ _ _ | getFieldID _ _ _
  | getObjectClass _ => true
  | _ => false

/-- Whether the call answers a reference. -/
def answersReference : EnvCall → Bool
  | findClass _ | callStaticObjectMethod _ _ | getObjectClass _ | getObjectField _ _
  | newStringUTF _ => true
  | _ => false

/-- The calls that run Java code or allocate and so may raise an exception when every
lookup succeeds: `NewStringUTF`, `Logger.info`, `LogManager.getLogger` and
`Minecraft.getInstance`. -/
def mayRaise : EnvCall → Bool
  | newStringUTF _ | callVoidMethod _ _ _ | callStaticObjectMethod _ _ => true
  | _ => false

end EnvCall

end Rynox
