/-
# The native methods of the class library

The table of all native methods that the machine brings with it, by symbol.
-/
import JavaMachine.Native.Access
import JavaMachine.Native.Calls
import JavaMachine.Native.Loading
import JavaMachine.Native.Objects
import JavaMachine.Native.Threads

namespace JavaMachine

open Builtin Native

/-- The native methods of the class library. -/
def builtins (W : Type) : List (String × Native W) := [
  ("Java_java_lang_Class_isAssignableFrom", ofAction classIsAssignable),
  ("Java_java_lang_Class_primitiveClass", ofAction classPrimitive),
  ("Java_java_lang_Class_initialize", classInitialize),
  ("Java_java_lang_ClassLoader_defineClass", loaderDefine),
  ("Java_java_lang_System_arraycopy", ofAction systemArrayCopy),
  ("Java_java_lang_System_identityHashCode", ofAction identityHash),
  ("Java_java_lang_SystemClassLoader_findClass", loaderFind),
  ("Java_java_lang_SystemClassLoader_findLoadedClass", ofAction loaderFindLoaded),
  ("Java_java_lang_SystemClassLoader_resourceExists", loaderResourceExists),
  ("Java_java_lang_Runtime_loadLibrary", runtimeLoadLibrary),
  ("Java_java_lang_Runtime_gc", runtimeGc),
  ("Java_java_lang_Runtime_exit", runtimeExit),
  ("Java_java_lang_Runtime_freeMemory", runtimeFreeMemory),
  ("Java_java_lang_String_intern", ofAction stringIntern),
  ("Java_java_lang_Thread_doStart", threadStart),
  ("Java_java_lang_Thread_interrupt", ofAction threadInterrupt),
  ("Java_java_lang_Thread_currentThread", threadCurrent),
  ("Java_java_lang_Throwable_resolveTrace", ofAction throwableResolveTrace),
  ("Java_java_lang_Throwable_trace", throwableTrace),
  ("Java_java_lang_Object_getClass", ofAction objectGetClass),
  ("Java_java_lang_Object_notify", ofAction objectNotify),
  ("Java_java_lang_Object_notifyAll", ofAction objectNotifyAll),
  ("Java_java_lang_Object_toString", ofAction objectToString),
  ("Java_java_lang_Object_wait", objectWait),
  ("Java_java_lang_Object_hashCode", ofAction identityHash),
  ("Java_java_lang_reflect_Array_get", ofAction arrayGet),
  ("Java_java_lang_reflect_Array_set", ofAction arraySet),
  ("Java_java_lang_reflect_Array_getLength", ofAction arrayGetLength),
  ("Java_java_lang_reflect_Array_makeObjectArray", ofAction arrayMake),
  ("Java_java_lang_reflect_Constructor_make", ofAction makeInstance),
  ("Java_java_lang_reflect_Field_get", ofAction fieldGet),
  ("Java_java_lang_reflect_Field_set", ofAction fieldSet),
  ("Java_java_lang_reflect_Method_getCaller", methodGetCaller),
  ("Java_java_lang_reflect_Method_invoke", methodInvoke),
  ("Java_java_net_URL_00024ResourceInputStream_open", resourceOpen),
  ("Java_java_net_URL_00024ResourceInputStream_read_JI", ofAction resourceRead),
  ("Java_java_net_URL_00024ResourceInputStream_read_JI_3BII", ofAction resourceReadInto),
  ("Java_java_net_URL_00024ResourceInputStream_close", ofAction resourceClose),
  ("Java_java_io_ObjectInputStream_makeInstance", ofAction makeInstance)]

/-- The registry of the class library's native methods. -/
def Registry.bootstrap (W : Type) : Registry W := .ofList (builtins W)

end JavaMachine
