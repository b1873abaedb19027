import MulleObjC.Enum.RoundTrip
import MulleObjC.Enum.Lossless
import MulleObjC.Enum.Strict
import MulleObjC.ConditionLock.MulleIsLocked
import MulleObjC.Access.Handover
import MulleObjC.Proxy.Accessible
import MulleObjC.Pool.Count
import MulleObjC.Pool.ObjectMap
import MulleObjC.Pool.Receiver
import MulleObjC.Pool.Stack
import MulleObjC.Pool.Allocation
import MulleObjC.Autolock.Balance
import MulleObjC.Invocation.Fifo
import MulleObjC.Invocation.Vararg
import MulleObjC.Invocation.Implementation
import MulleObjC.Invocation.Packing
import MulleObjC.Invocation.Ownership
import MulleObjC.Autolock.Coherence
import MulleObjC.Copying.Sharing
import MulleObjC.NSThread.Argument
import MulleObjC.Dynamic.Ownership
import MulleObjC.Dynamic.Responds
import MulleObjC.Dynamic.Storage
import MulleObjC.Enum.Untouched
import MulleObjC.Dynamic.RoundTrip
import MulleObjC.Describe.Encoding
import MulleObjC.Describe.Memory
import MulleObjC.Dynamic.Signature
import MulleObjC.Dynamic.Declaring
import MulleObjC.Describe.Decodes
import MulleObjC.Describe.Broken
import MulleObjC.Describe.Layout
import MulleObjC.Describe.Ivars
import MulleObjC.AtomicId.Lazy
import MulleObjC.Access.Recycle
import MulleObjC.AtomicId.Duplicate
import MulleObjC.Copying.Clearing
import MulleObjC.Library.Forest
import MulleObjC.NSObject.Interposing
import MulleObjC.NSObject.Instance
import MulleObjC.NSObject.Once
import MulleObjC.NSThread.Start
import MulleObjC.NSThread.MultiThreaded
import MulleObjC.NSThread.Finalizers
import MulleObjC.NSThread.Universethread
import MulleObjC.NSObject.Roots
import MulleObjC.NSObject.Owned
import MulleObjC.Enum.Prefix
import MulleObjC.Dynamic.Grammar
import MulleObjC.NSRange.Combine
import MulleObjC.NSUInteger.Atomic
import MulleObjC.NSObject.ObjectIvar
import MulleObjC.NSValue.Store
import MulleObjC.Selector.Registry
import MulleObjC.NSRange.Validate
import MulleObjC.Ivar.Duplicated
import MulleObjC.Ivar.Raw
import MulleObjC.Search.Chain
import MulleObjC.Autolock.Lifetime
import MulleObjC.Access.Arrays
import MulleObjC.Autolock.Locking
